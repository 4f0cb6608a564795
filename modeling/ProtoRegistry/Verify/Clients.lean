import ProtoRegistry.Verify.Admission
import ProtoRegistry.Verify.Lifetimes
import ProtoRegistry.Verify.Listing
import ProtoRegistry.Verify.Refreshing

/-!
# Clients of a running registry

A client lists the schemas of a namespace page by page and then fetches the versions that were listed, while the
registry goes on: other requests are served between its own, and processes stop and are followed by others. What a
resolver knows of a schema is a version that was current when a page of its last listing was read, with the
descriptor set that the registry has for that version at all times.
-/

namespace ProtoRegistry
open RegistryM ServerM

variable {s : ProtoRegistry.Server}

/-! ## A deployment over time -/

def Server.pool (s : Server) (reqs : List (Identity × Rpc)) (w : World) :
    Pool registryInterface (Except Err Reply) World :=
  s.registry.pool (reqs.filterMap fun req => s.callOf req.1 req.2) w

/-- A deployment at the moments at which it answers a client. From one to the next, a process goes on, or is
followed by another one. -/
structure Deployment (s : Server) where
  moments : Nat → Pool registryInterface (Except Err Reply) World
  start : ∃ w reqs, s.Runs .empty w ∧ moments 0 = s.pool reqs w
  next : ∀ k, Pool.Reach World.MayFail (fun _ _ _ _ => True) (moments k) (moments (k + 1)) ∨
    ∃ w reqs, s.Runs (moments k).state w ∧ moments (k + 1) = s.pool reqs w

theorem Server.Runs.trans (h : s.Runs w w') (h' : s.Runs w' w'') : s.Runs w w'' := by
  induction h' with
  | refl => exact h
  | requests _ hreach ih => exact .requests ih hreach
  | bootstrap _ hreach ih => exact .bootstrap ih hreach
  | restart _ hok ih => exact .restart ih hok

theorem Server.Runs.store_inv {J : Store → Prop} (hJ : ∀ op st, J st → J (st.perform op).2) (h : s.Runs w w')
    (hw : J w.store) : J w'.store := by
  induction h with
  | refl => exact hw
  | requests _ hreach ih => exact hreach.induct (J := fun w _ => J w.store) ih fun hw hstep _ => hstep.store_inv hJ hw
  | bootstrap _ hreach ih => exact hreach.induct (J := fun w _ => J w.store) ih fun hw hstep _ => hstep.store_inv hJ hw
  | restart _ _ ih =>
    rw [Registry.store_restart]
    exact ih

namespace Deployment

variable (d : Deployment s)

def world (k : Nat) : World := (d.moments k).state

def store (k : Nat) : Store := (d.world k).store

variable {d}

theorem reached (k : Nat) : ∃ w reqs, s.Runs .empty w ∧
    Pool.Reach World.MayFail (fun _ _ _ _ => True) (s.pool reqs w) (d.moments k) := by
  induction k with
  | zero =>
    obtain ⟨w, reqs, hw, heq⟩ := d.start
    exact ⟨w, reqs, hw, heq ▸ .refl⟩
  | succ k ih =>
    obtain ⟨w, reqs, hw, hreach⟩ := ih
    obtain hnext | ⟨w', reqs', hw', heq⟩ := d.next k
    · exact ⟨w, reqs, hw, hreach.trans hnext⟩
    · exact ⟨w', reqs', (Server.Runs.requests hw hreach).trans hw', heq ▸ .refl⟩

theorem runs (k : Nat) : s.Runs .empty (d.world k) := by
  obtain ⟨w, reqs, hw, hreach⟩ := d.reached k
  exact .requests hw hreach

theorem store_inv {J : Store → Prop} (hJ : ∀ op st, J st → J (st.perform op).2) (hjk : j ≤ k) (hj : J (d.store j)) :
    J (d.store k) := by
  induction hjk with
  | refl => exact hj
  | @step k _ ih =>
    obtain hnext | ⟨w, reqs, hw, heq⟩ := d.next k
    · exact hnext.induct (J := fun w _ => J w.store) ih fun hw hstep _ => hstep.store_inv hJ hw
    · have hnext : J w.store := hw.store_inv hJ ih
      rw [store, world, heq]
      exact hnext

theorem version_unique {row row' : VersionRow} (hj : (d.store j).versions.get key = some row)
    (hk : (d.store k).versions.get key = some row') : row = row' := by
  have hlater : ∀ {j k row}, j ≤ k → (d.store j).versions.get key = some row →
      (d.store k).versions.get key = some row :=
    fun hjk hj => d.store_inv (J := fun st => st.versions.get key = some _) (fun op _ => Store.get_versions_perform op)
      hjk hj
  obtain hjk | hkj := Nat.le_total j k
  · exact Option.some.inj ((hlater hjk hj).symm.trans hk)
  · exact Option.some.inj (hj.symm.trans (hlater hkj hk))

end Deployment

/-! ## Pointers are never zero -/

/-- Version 0, which stands for the current one in requests, is not pointed to. -/
def Store.PointsAtVersions (st : Store) : Prop :=
  ∀ ns sc, (st.pointers ns sc).currentVersion ≠ some 0 ∧ (st.pointers ns sc).stagedVersion ≠ some 0

theorem Store.stagedVersion_setStaged {st : Store} (h : (st.pointers ns sc).stagedVersion ≠ some 0) (v : Nat) :
    ((st.setStaged ns sc v).pointers ns sc).stagedVersion ≠ some 0 := by
  unfold setStaged
  split
  · exact h
  · simp only [pointers, Dict.get_set_self, Option.getD_some]
    split
    · simp
    · next hv => simpa using hv

theorem Store.PointsAtVersions.perform {st : Store} (h : st.PointsAtVersions) (op : StoreOp) :
    (st.perform op).2.PointsAtVersions := by
  intro ns sc
  by_cases htouch : Op.Touches ns sc (.store op)
  · obtain ⟨hcurrent, hstaged⟩ := h ns sc
    cases op with
    | setStaged ns' sc' v =>
      obtain ⟨rfl, rfl⟩ := htouch
      refine ⟨?_, stagedVersion_setStaged hstaged v⟩
      change ((st.setStaged ns' sc' v).pointers ns' sc').currentVersion ≠ _
      rwa [currentVersion_setStaged]
    | promote ns' =>
      obtain rfl : ns' = ns := htouch
      change ((st.promote ns').2.pointers ns' sc).currentVersion ≠ _ ∧
        ((st.promote ns').2.pointers ns' sc).stagedVersion ≠ _
      rw [pointers_promote]
      cases hrow : st.pointers ns' sc with
      | mk current staged =>
        rw [hrow] at hcurrent hstaged
        cases staged with
        | none => exact ⟨hcurrent, hstaged⟩
        | some v => exact ⟨hstaged, by simp⟩
    | discardStaging ns' =>
      obtain rfl : ns' = ns := htouch
      change ((st.discardStaging ns').pointers ns' sc).currentVersion ≠ _ ∧
        ((st.discardStaging ns').pointers ns' sc).stagedVersion ≠ _
      rw [pointers_discardStaging]
      exact ⟨hcurrent, by simp⟩
    | _ => cases htouch
  · rw [pointers_perform htouch]
    exact h ns sc

theorem Deployment.pointsAtVersions {d : Deployment s} (k : Nat) : (d.store k).PointsAtVersions :=
  (d.runs k).store_inv (fun op _ hst => hst.perform op) fun _ _ => ⟨by simp [World.empty, Store.empty, Store.pointers],
    by simp [World.empty, Store.empty, Store.pointers]⟩

/-- The set of a version, whenever it is stored. -/
structure Deployment.Publishes (d : Deployment s) (ns sc : String) (v : Nat) (fdset : List FileDescriptor) : Prop where
  stored : ∃ j, ((d.store j).versions.get (ns, sc, v)).isSome
  compiled : ∀ j row, (d.store j).versions.get (ns, sc, v) = some row → row.compiled = fdset

theorem Server.getDescriptor_eq_ok {w w' : World} {res : GetDescriptorResponse} (hv : v ≠ 0)
    (h : execute World.perform (s.getDescriptor ns sc v) w = (.ok res, w')) :
    ∃ row, w.store.versions.get (ns, sc, v) = some row ∧ res = ⟨v, row.compiled⟩ := by
  obtain ⟨_, hid, h⟩ := (execute_bind_eq_ok_of (execute_liftExcept ..)).mp h
  cases hrow : w.store.versions.get (ns, sc, v) with
  | none =>
    have hversion : execute World.perform (resolveVersion ns sc v) w = (.ok v, w) := by
      rw [resolveVersion, if_pos hv]
      rfl
    rw [execute_bind_of_ok hversion] at h
    obtain ⟨ver, w₁, hver, -⟩ := execute_bind_eq_ok.mp h
    rw [execute_translating_of (exec_store (.getVersion ns sc v) w)] at hver
    simp only [Store.perform, Store.getVersion, hrow] at hver
    cases hver
  | some row =>
    have hexec := execute_getDescriptor (s := s) hid hv hrow
    have heq := ((execute_bind_eq_ok_of (execute_liftExcept ..)).mpr ⟨_, hid, h⟩).symm.trans hexec
    cases heq
    exact ⟨row, rfl, rfl⟩

theorem Deployment.publishes_of_handle {d : Deployment s} {id : Identity} {res : GetDescriptorResponse} (hv : v ≠ 0)
    (h : (s.handle id (.getDescriptor ns sc v) (d.world j)).1 = .ok (.descriptor res)) :
    res.version = v ∧ d.Publishes ns sc v res.fileDescriptorSet := by
  have hexec : s.handle id (.getDescriptor ns sc v) (d.world j) = (.ok (.descriptor res), _) := Prod.ext h rfl
  obtain ⟨res', w', hget, heq⟩ := execute_bind_eq_ok.mp hexec
  cases heq
  obtain ⟨row, hrow, rfl⟩ := Server.getDescriptor_eq_ok hv hget
  refine ⟨rfl, ⟨j, by rw [store, hrow]; rfl⟩, fun k row' hk => ?_⟩
  exact congrArg VersionRow.compiled (d.version_unique hk hrow)

namespace Client

/-! ## What a client reads -/

/-- The pages that a client reads, from the one with number `k` on. A request may be refused or lost. -/
inductive Listing.Read (list : Nat → String → Except Status (List SchemaInfo × String)) :
    Nat → String → Listing → Prop
  | last : list k token = .ok (page, "") → Read list k token ⟨[page], none⟩
  | next : list k token = .ok (page, nextToken) → nextToken ≠ "" → Read list (k + 1) nextToken l →
      Read list k token ⟨page :: l.pages, l.failure⟩
  | failed (e : String) : Read list k token ⟨[], some e⟩

/-- A listing that is complete is what following the tokens returns. -/
theorem Listing.Read.follow {list : Nat → String → Except Status (List SchemaInfo × String)} {l : Listing}
    (h : Listing.Read list k token l) (hcomplete : l.failure = none) :
    ProtoRegistry.follow list l.pages.length k token = .ok (some l.pages.flatten) := by
  induction h with
  | last hpage => simp [ProtoRegistry.follow, hpage, bind, Except.bind, pure, Except.pure]
  | next hpage hne _ ih =>
    simp only [List.length_cons, ProtoRegistry.follow, hpage, bind, Except.bind, if_neg hne, ih hcomplete, pure,
      Except.pure, Option.map_some, List.flatten_cons]
  | failed e => cases hcomplete

def SchemaInfo.ofProto (info : ProtoRegistry.SchemaInfo) : SchemaInfo := ⟨info.schemaID, info.currentVersion⟩

/-- The answers to a client of a namespace whose request for the page with number `k` is handled at the moment
`times k`, and each request for a version at some moment. -/
structure Server.Observes (d : Deployment s) (id : Identity) (ns : String) (times : Nat → Nat) (server : Server) :
    Prop where
  listed : Listing.Read (fun k token => (s.listSchemas (d.store (times k)) ns 0 token).map fun res =>
    (res.schemas.map SchemaInfo.ofProto, res.nextPageToken)) 0 "" (server.listSchemas ns)
  fetched : ∀ sc v version fdset, server.getDescriptor ns sc v = .ok (version, fdset) → ∃ j,
    (s.handle id (.getDescriptor ns sc v) (d.world j)).1 = .ok (.descriptor ⟨version, fdset⟩)

def Server.window (server : Server) (ns : String) (times : Nat → Nat) : List Nat :=
  (List.range (server.listSchemas ns).pages.length).map times

theorem Server.mem_window {server : Server} {times : Nat → Nat} :
    j ∈ server.window ns times ↔ ∃ k < (server.listSchemas ns).pages.length, times k = j := by
  simp [Server.window]

end Client

/-- The server lists its schemas exactly to a client that does not ask for a page size. -/
structure Server.ListsWell (s : Server) : Prop where
  lawful : s.ext.Lawful
  default : 0 < s.limits.defaultListPageSize
  max : 0 < s.limits.maxListPageSize
  id : (builtinsNamespace.utf8ByteSize : Int) ≤ s.limits.maxIDLength.toInt
  fits : (s.limits.resolvePageSize 0).toInt < 2147483647

theorem Server.validateNamespaceID_of_listSchemas (h : s.listSchemas st ns size token = .ok res) :
    s.validateNamespaceID ns = .ok () := by
  obtain ⟨_, hns, -⟩ := except_bind_eq_ok.mp h
  exact hns

namespace Client

variable {d : Deployment s} {id : Identity} {times : Nat → Nat} {server : Server} {env : External} {cfg : Config}

section
variable (hwell : s.ListsWell) (h : server.Observes d id ns times)
include hwell h

/-- The pages of a complete listing are those of the schemas, at the moments at which they are read. -/
theorem Server.Observes.listsExactly (hcomplete : (server.listSchemas ns).failure = none) :
    ListsExactly s.ext.less (fun k sc => (d.store (times k)).schemas.get (ns, sc))
      (fun row => SchemaInfo.ofProto (schemaToProto ns row.1 row.2 []))
      fun k token => (s.listSchemas (d.store (times k)) ns 0 token).map fun res =>
        (res.schemas.map SchemaInfo.ofProto, res.nextPageToken) := by
  have hns : s.validateNamespaceID ns = .ok () := by
    have hfirst : ∃ res, s.listSchemas (d.store (times 0)) ns 0 "" = .ok res := by
      have hread := h.listed
      cases hfirst : s.listSchemas (d.store (times 0)) ns 0 "" with
      | ok res => exact ⟨res, rfl⟩
      | error e =>
        generalize server.listSchemas ns = l at hread hcomplete
        cases hread with
        | last hpage => simp [hfirst, Except.map] at hpage
        | next hpage => simp [hfirst, Except.map] at hpage
        | failed e => cases hcomplete
    obtain ⟨res, hres⟩ := hfirst
    exact ProtoRegistry.Server.validateNamespaceID_of_listSchemas hres
  have hproto : s.Serves (fun k => (d.store (times k)).schemaTable ns) (fun row => schemaToProto ns row.1 row.2 [])
      fun k token => (s.listSchemas (d.store (times k)) ns 0 token).map fun res => (res.schemas, res.nextPageToken) :=
    ProtoRegistry.Server.serves_schemas hwell.lawful hwell.default hwell.max hns fun _ => .inl hwell.fits
  have hserves : s.Serves (fun k => (d.store (times k)).schemaTable ns)
      (fun row => SchemaInfo.ofProto (schemaToProto ns row.1 row.2 []))
      fun k token => (s.listSchemas (d.store (times k)) ns 0 token).map fun res =>
        (res.schemas.map SchemaInfo.ofProto, res.nextPageToken) := by
    intro k token after hcursor
    obtain ⟨page, next, hpage, hlist⟩ := hproto k token after hcursor
    refine ⟨page, next, hpage, ?_⟩
    beta_reduce at hlist
    cases hres : s.listSchemas (d.store (times k)) ns 0 token with
    | error e =>
      rw [hres] at hlist
      cases hlist
    | ok res =>
      rw [hres] at hlist
      obtain ⟨hschemas, htoken⟩ := Prod.mk.inj (Except.ok.inj hlist)
      simp [Except.map, hres, hschemas, htoken]
  refine hserves.listsExactly hwell.lawful ?_ (fun _ _ _ => Store.mem_schemaTable) fun k sc hsc => ?_
  · exact Int64.le_iff_toInt_le.mpr (le_trans (Int.natCast_nonneg _) hwell.id)
  · exact .inl (((d.runs (times k)).admissible hwell.id Store.admissible_empty).schemas ns sc hsc)

theorem Server.Observes.current (hcomplete : (server.listSchemas ns).failure = none)
    (hlisted : ⟨sc, some v⟩ ∈ (server.listSchemas ns).pages.flatten) :
    ∃ k ∈ server.window ns times, ((d.store k).pointers ns sc).currentVersion = some v := by
  obtain ⟨rows, hitems, -, hrows, -⟩ := (h.listsExactly hwell hcomplete).returns _ _ (h.listed.follow hcomplete)
  rw [hitems] at hlisted
  obtain ⟨⟨sc', row⟩, hrow, heq⟩ := List.mem_map.mp hlisted
  obtain ⟨rfl, hcurrent⟩ := SchemaInfo.mk.inj heq
  obtain ⟨k, hk, hget⟩ := hrows _ hrow
  refine ⟨times k, Server.mem_window.mpr ⟨k, hk, rfl⟩, ?_⟩
  have hpointers : (d.store (times k)).pointers ns sc' = row := congrArg (Option.getD · _) hget
  exact (congrArg SchemaRow.currentVersion hpointers).trans hcurrent

theorem Server.Observes.complete (hcomplete : (server.listSchemas ns).failure = none)
    (hcurrent : ∀ k ∈ server.window ns times, ((d.store k).pointers ns sc).currentVersion.isSome) :
    ∃ v, ⟨sc, some v⟩ ∈ (server.listSchemas ns).pages.flatten := by
  obtain ⟨rows, hitems, -, hrows, honce⟩ := (h.listsExactly hwell hcomplete).returns _ _ (h.listed.follow hcomplete)
  have hstored : ∀ k < (server.listSchemas ns).pages.length, ∃ row,
      (d.store (times k)).schemas.get (ns, sc) = some row ∧ row.currentVersion.isSome := by
    intro k hk
    have hk := hcurrent (times k) (Server.mem_window.mpr ⟨k, hk, rfl⟩)
    cases hrow : (d.store (times k)).schemas.get (ns, sc) with
    | none =>
      rw [Store.pointers, hrow] at hk
      cases hk
    | some row =>
      rw [Store.pointers, hrow] at hk
      exact ⟨row, rfl, hk⟩
  have hcount := honce sc fun k hk => by
    obtain ⟨row, hrow, -⟩ := hstored k hk
    rw [hrow]
    rfl
  have hmem : sc ∈ rows.map Prod.fst := List.count_pos_iff.mp (by omega)
  obtain ⟨⟨sc', row⟩, hrow, rfl⟩ := List.mem_map.mp hmem
  obtain ⟨k, hk, hget⟩ := hrows _ hrow
  obtain ⟨row', hrow', hsome⟩ := hstored k hk
  cases hget.symm.trans hrow'
  obtain ⟨v, hv⟩ := Option.isSome_iff_exists.mp hsome
  refine ⟨v, ?_⟩
  rw [hitems, ← hv]
  exact List.mem_map.mpr ⟨_, hrow, rfl⟩

end

/-! ## What a client keeps -/

variable {r r' : Resolver} {snap : NsSnapshot} {infos : List SchemaInfo} {ns : String}

/-- The schemas of a snapshot are those listed with a version, as they were fetched or as the resolver has them. -/
structure NsSnapshot.Planned (env : External) (server : Server) (r : Resolver) (infos : List SchemaInfo)
    (snap : NsSnapshot) : Prop where
  taken : ∀ sc ss, snap.schemas.get sc = some ss → ∃ v, ⟨sc, some v⟩ ∈ infos ∧
    (ss.version = v ∧ r.snapshot.bind (·.schemas.get sc) = some ss ∨ fetchSchema env server r sc v = .ok ss)
  listed : ∀ sc v, ⟨sc, some v⟩ ∈ infos → (snap.schemas.get sc).isSome

theorem NsSnapshot.Loaded.planned (h : snap.Loaded env server r infos) : snap.Planned env server r infos where
  taken sc ss hss := by
    obtain ⟨v, hv, hfetch⟩ := h.fetched sc ss hss
    exact ⟨v, hv, .inr hfetch⟩
  listed := h.listed

theorem NsSnapshot.Planned.skip (h : snap.Planned env server r infos) (sc : String) :
    snap.Planned env server r (infos ++ [⟨sc, none⟩]) where
  taken i ss hss := by
    obtain ⟨v, hv, hss⟩ := h.taken i ss hss
    exact ⟨v, List.mem_append_left _ hv, hss⟩
  listed i v hi := by
    obtain hi | hi := List.mem_append.mp hi
    · exact h.listed i v hi
    · cases List.mem_singleton.mp hi

theorem NsSnapshot.Planned.put (h : snap.Planned env server r infos)
    (hss : ss.version = v ∧ r.snapshot.bind (·.schemas.get sc) = some ss ∨ fetchSchema env server r sc v = .ok ss) :
    (snap.put sc ss).Planned env server r (infos ++ [⟨sc, some v⟩]) where
  taken i ss' hss' := by
    change (snap.schemas.set sc ss).get i = some ss' at hss'
    rw [Dict.get_set] at hss'
    split at hss'
    · next heq =>
      cases hss'
      cases heq
      exact ⟨v, List.mem_append_right _ (List.mem_singleton_self _), hss⟩
    · obtain ⟨w, hw, hss'⟩ := h.taken i ss' hss'
      exact ⟨w, List.mem_append_left _ hw, hss'⟩
  listed i w hi := by
    obtain hi | hi := List.mem_append.mp hi
    · exact Dict.isSome_get_set _ _ (h.listed i w hi)
    · cases List.mem_singleton.mp hi
      change ((snap.schemas.set sc ss).get sc).isSome
      rw [Dict.get_set_self]
      rfl

/-- What a plan is, when the listed schemas have been gone through. -/
structure RefreshPlan.Covers (env : External) (server : Server) (r : Resolver) (infos : List SchemaInfo)
    (plan : RefreshPlan) : Prop where
  planned : plan.next.Planned env server r infos
  nameIndex : plan.next.nameIndex = .empty
  /-- Where nothing is added or replaced, the resolver has all the schemas. -/
  unchanged : plan.added = [] → plan.replaced = [] → ∀ sc ss, plan.next.schemas.get sc = some ss →
    r.snapshot.bind (·.schemas.get sc) = some ss

theorem planSchema_covers {plan plan' : RefreshPlan} {info : SchemaInfo} (h : plan.Covers env server r infos)
    (hstep : planSchema env server r plan info = .ok plan') : plan'.Covers env server r (infos ++ [info]) := by
  obtain ⟨sc, _ | v⟩ := info
  · cases hstep
    exact ⟨h.planned.skip sc, h.nameIndex, h.unchanged⟩
  simp only [planSchema] at hstep
  split at hstep
  · next existing hexisting =>
    split at hstep
    · next hversion =>
      cases hstep
      refine ⟨h.planned.put (.inl ⟨hversion, hexisting⟩), h.nameIndex, fun hadded hreplaced i ss hss => ?_⟩
      change (plan.next.schemas.set sc existing).get i = some ss at hss
      rw [Dict.get_set] at hss
      split at hss
      · next heq =>
        cases hss
        exact heq ▸ hexisting
      · exact h.unchanged hadded hreplaced i ss hss
    · obtain ⟨fresh, hfetch, hput⟩ := except_bind_eq_ok.mp hstep
      cases hput
      refine ⟨h.planned.put (.inr (mapError_eq_ok.mp hfetch)), h.nameIndex, fun _ hreplaced => ?_⟩
      simp at hreplaced
  · obtain ⟨fresh, hfetch, hput⟩ := except_bind_eq_ok.mp hstep
    cases hput
    refine ⟨h.planned.put (.inr (mapError_eq_ok.mp hfetch)), h.nameIndex, fun hadded => ?_⟩
    simp at hadded

theorem plan_covers {plan : RefreshPlan} (h : infos.foldlM (planSchema env server r) ⟨.new, [], []⟩ = .ok plan) :
    plan.Covers env server r infos := by
  have hinit : (RefreshPlan.mk .new [] []).Covers env server r [] :=
    ⟨⟨fun _ _ hss => (by cases hss), fun _ _ hi => (by cases hi)⟩, rfl, fun _ _ _ _ hss => (by cases hss)⟩
  exact foldlM_inv (J := fun done plan => plan.Covers env server r done) hinit
    (fun done info plan plan' _ hdone hstep => planSchema_covers hdone hstep) h

theorem refresh_eq_ok (h : refresh env server r = (.ok (), r')) : ∃ infos plan, listAllSchemas server r = .ok infos ∧
    infos.foldlM (planSchema env server r) ⟨.new, [], []⟩ = .ok plan ∧
      (plan.added = [] ∧ plan.replaced = [] ∧ removedBy env.rangeKeys r.snapshot plan.next = [] ∧
        r.snapshot.isSome ∧ r' = r ∨
        ∃ next, plan.next.buildNameIndex = .ok next ∧ r'.snapshot = some next ∧ r'.ns = r.ns ∧ r'.cfg = r.cfg) := by
  cases refreshed_of_eq h with
  | unchanged _ hinfos hplan hadded hreplaced hremoved hsome =>
    exact ⟨_, _, hinfos, hplan, .inl ⟨hadded, hreplaced, hremoved, hsome, rfl⟩⟩
  | applied hplans hindex =>
    obtain ⟨infos, hinfos, hplan⟩ := hplans.made
    exact ⟨infos, _, hinfos, hplan, .inr ⟨_, hindex, rfl, rfl, rfl⟩⟩

theorem snapshot_refresh_error (h : refresh env server r = (.error e, r')) :
    r'.snapshot = r.snapshot ∧ r'.ns = r.ns ∧ r'.cfg = r.cfg := by
  cases refreshed_of_eq h with
  | stopped | ambiguous | failed => exact ⟨rfl, rfl, rfl⟩

/-! ## What a client knows -/

theorem failure_of_listAllSchemas (h : listAllSchemas server r = .ok infos) :
    (server.listSchemas r.ns).failure = none := by
  rw [listAllSchemas] at h
  split at h
  · cases h
  · next hfailure => exact hfailure

/-- The schemas are compiled from the sets that the registry has for their versions. -/
structure NsSnapshot.Authentic (env : External) (d : Deployment s) (ns : String) (snap : NsSnapshot) : Prop where
  sound : snap.Sound env
  publishes : ∀ sc ss, snap.schemas.get sc = some ss → d.Publishes ns sc ss.version ss.rawDescriptorSet

/-- The schemas are those that are tracked, with versions that are current at one of the moments. -/
structure NsSnapshot.UpToDate (d : Deployment s) (ns : String) (cfg : Config) (window : List Nat) (snap : NsSnapshot) :
    Prop where
  current : ∀ sc ss, snap.schemas.get sc = some ss → cfg.tracksSchema sc ∧
    ∃ k ∈ window, ((d.store k).pointers ns sc).currentVersion = some ss.version
  complete : ∀ sc, cfg.tracksSchema sc → (∀ k ∈ window, ((d.store k).pointers ns sc).currentVersion.isSome) →
    (snap.schemas.get sc).isSome

/-- The schema that the index has for a name declares it. -/
def NsSnapshot.Indexed (snap : NsSnapshot) : Prop :=
  ∀ n ss, snap.schemaFor n = some ss ↔ ∃ sc, snap.schemas.get sc = some ss ∧ (sc, n) ∈ snap.visits

theorem NsSnapshot.indexed_of_buildNameIndex {snap₀ : NsSnapshot} (hempty : snap₀.nameIndex = .empty)
    (hindex : snap₀.buildNameIndex = .ok snap) : snap.Indexed := by
  obtain ⟨-, hsnap⟩ := (NsSnapshot.buildNameIndex_eq_ok_iff hempty).mp hindex
  have hvisits : snap.visits = snap₀.visits := by rw [hsnap]; rfl
  intro n ss
  rw [NsSnapshot.schemaFor_eq_some_iff hempty hindex, hvisits, schemas_of_buildNameIndex hindex]

section
variable (hwell : s.ListsWell) (hserver : server.Observes d id r.ns times)
  (hinfos : listAllSchemas server r = .ok infos)
include hwell hserver hinfos

theorem Server.Observes.current_of_mem (hv : ⟨sc, some v⟩ ∈ infos) : r.cfg.tracksSchema sc ∧
    ∃ k ∈ server.window r.ns times, ((d.store k).pointers r.ns sc).currentVersion = some v := by
  rw [listAllSchemas_eq_ok hinfos, List.mem_filter] at hv
  exact ⟨hv.2, hserver.current hwell (failure_of_listAllSchemas hinfos) hv.1⟩

/-- A version that was listed is fetched as it is stored. -/
theorem Server.Observes.publishes (hv : ⟨sc, some v⟩ ∈ infos) (hfetch : fetchSchema env server r sc v = .ok ss) :
    ss.version = v ∧ d.Publishes r.ns sc ss.version ss.rawDescriptorSet := by
  obtain ⟨version, fdset, hget, hcompile⟩ := fetchSchema_eq_ok hfetch
  obtain ⟨-, -, -, -, hversion, hraw⟩ := compileSchema_eq_ok hcompile
  obtain ⟨j, hj⟩ := hserver.fetched sc v version fdset hget
  -- it was current, so the request is not for version 0
  have hne : v ≠ 0 := by
    rintro rfl
    obtain ⟨-, k, -, hk⟩ := hserver.current_of_mem hwell hinfos hv
    exact (d.pointsAtVersions k r.ns sc).1 hk
  obtain ⟨hsame, hpublishes⟩ := d.publishes_of_handle hne hj
  have hsame : version = v := hsame
  rw [hversion, hraw, hsame]
  exact ⟨rfl, hpublishes⟩

variable (hplanned : snap.Planned env server r infos)
include hplanned

theorem NsSnapshot.Planned.authentic (hcur : ∀ cur, r.snapshot = some cur → cur.Authentic env d r.ns) :
    snap.Authentic env d r.ns := by
  have htaken : ∀ sc ss, snap.schemas.get sc = some ss →
      (ss.schemaID = sc ∧ ss.FromSet env) ∧ d.Publishes r.ns sc ss.version ss.rawDescriptorSet := by
    intro sc ss hss
    obtain ⟨v, hv, ⟨-, hkept⟩ | hfetch⟩ := hplanned.taken sc ss hss
    · obtain ⟨cur, hsnapshot, hget⟩ := Option.bind_eq_some_iff.mp hkept
      have hcur := hcur cur hsnapshot
      exact ⟨hcur.sound sc ss hget, hcur.publishes sc ss hget⟩
    · obtain ⟨hid, hfrom, -⟩ := fetchSchema_spec hfetch
      exact ⟨⟨hid, hfrom⟩, (hserver.publishes hwell hinfos hv hfetch).2⟩
  exact ⟨fun sc ss hss => (htaken sc ss hss).1, fun sc ss hss => (htaken sc ss hss).2⟩

theorem NsSnapshot.Planned.upToDate : snap.UpToDate d r.ns r.cfg (server.window r.ns times) := by
  refine ⟨fun sc ss hss => ?_, fun sc htrack hcurrent => ?_⟩
  · obtain ⟨v, hv, htaken⟩ := hplanned.taken sc ss hss
    have hversion : ss.version = v := by
      obtain ⟨hversion, -⟩ | hfetch := htaken
      · exact hversion
      · exact (hserver.publishes hwell hinfos hv hfetch).1
    rw [hversion]
    exact hserver.current_of_mem hwell hinfos hv
  · obtain ⟨v, hv⟩ := hserver.complete hwell (failure_of_listAllSchemas hinfos) hcurrent
    refine hplanned.listed sc v ?_
    rw [listAllSchemas_eq_ok hinfos]
    exact List.mem_filter.mpr ⟨hv, htrack⟩

end

/-- What holds of the snapshot of a resolver whose last listing was read at the moments. -/
structure Resolver.Mirrors (env : External) (d : Deployment s) (ns : String) (cfg : Config) (window : List Nat)
    (r : Resolver) (snap : NsSnapshot) : Prop where
  sameNs : r.ns = ns
  schemas : r.cfg.schemas = cfg.schemas
  snapshot : r.snapshot = some snap
  authentic : snap.Authentic env d ns
  indexed : snap.Indexed
  upToDate : snap.UpToDate d ns cfg window

theorem NsSnapshot.UpToDate.congr {window : List Nat} {cfg' : Config} {snap' : NsSnapshot}
    (h : snap.UpToDate d ns cfg window) (hcfg : cfg'.schemas = cfg.schemas)
    (hget : ∀ sc, snap'.schemas.get sc = snap.schemas.get sc) : snap'.UpToDate d ns cfg' window := by
  have htracks : ∀ sc, cfg'.tracksSchema sc = cfg.tracksSchema sc := fun sc => by
    rw [Config.tracksSchema, hcfg, Config.tracksSchema]
  refine ⟨fun sc ss hss => ?_, fun sc htrack hcurrent => ?_⟩
  · rw [htracks]
    exact h.current sc ss (hget sc ▸ hss)
  · rw [hget]
    exact h.complete sc (htracks sc ▸ htrack) hcurrent

theorem NsSnapshot.Authentic.congr {snap' : NsSnapshot} (h : snap.Authentic env d ns)
    (hget : ∀ sc, snap'.schemas.get sc = snap.schemas.get sc) : snap'.Authentic env d ns :=
  ⟨fun sc ss hss => h.sound sc ss (hget sc ▸ hss), fun sc ss hss => h.publishes sc ss (hget sc ▸ hss)⟩

theorem mirrors_of_new {parent : Option Resolver} (hwell : s.ListsWell) (hserver : server.Observes d id ns times)
    (h : newSingleNamespace env server ns cfg parent = .ok r) :
    ∃ snap, r.Mirrors env d ns cfg (server.window ns times) snap := by
  obtain ⟨infos, snap₀, snap, agg, hinfos, hload, hindex, -, rfl⟩ := populate_eq_ok h
  obtain ⟨hloaded, hempty⟩ := loadSchemas_spec hload
  have hget : ∀ sc, snap.schemas.get sc = snap₀.schemas.get sc := fun sc => by
    rw [schemas_of_buildNameIndex hindex]
  have hauthentic := hloaded.planned.authentic hwell hserver hinfos fun cur hcur => (by cases hcur)
  have hupToDate := hloaded.planned.upToDate hwell hserver hinfos
  refine ⟨snap, rfl, ?_, rfl, hauthentic.congr hget, NsSnapshot.indexed_of_buildNameIndex hempty hindex,
    hupToDate.congr ?_ hget⟩ <;> cases parent <;> rfl

theorem RefreshPlan.Covers.get_eq {plan : RefreshPlan} {cur : NsSnapshot} (hlaw : env.Lawful)
    (h : plan.Covers env server r infos) (hcur : r.snapshot = some cur) (hadded : plan.added = [])
    (hreplaced : plan.replaced = [])
    (hremoved : removedBy env.rangeKeys r.snapshot plan.next = []) (sc : String) :
    cur.schemas.get sc = plan.next.schemas.get sc := by
  have hkept : ∀ ss, plan.next.schemas.get sc = some ss → cur.schemas.get sc = some ss := by
    intro ss hss
    have hbind := h.unchanged hadded hreplaced sc ss hss
    rwa [hcur, Option.bind_some] at hbind
  cases hnext : plan.next.schemas.get sc with
  | some ss => exact hkept ss hnext
  | none =>
    cases hget : cur.schemas.get sc with
    | none => rfl
    | some ss =>
      have hmem : ss ∈ removedBy env.rangeKeys r.snapshot plan.next := by
        rw [hcur]
        refine ((removedBy_perm hlaw cur plan.next).mem_iff).mpr (List.mem_map.mpr
          ⟨(sc, ss), List.mem_filter.mpr ⟨?_, ?_⟩, rfl⟩)
        · exact Dict.mem_toList.mpr hget
        · rw [hnext]
          rfl
      rw [hremoved] at hmem
      cases hmem

theorem Resolver.Mirrors.refresh {window : List Nat} {cur : NsSnapshot} (hlaw : env.Lawful)
    (hr : r.Mirrors env d ns cfg window cur) (hwell : s.ListsWell) (hserver : server.Observes d id ns times)
    (h : Client.refresh env server r = (.ok (), r')) :
    ∃ snap, r'.Mirrors env d ns cfg (server.window ns times) snap := by
  obtain ⟨infos, plan, hinfos, hplan, hcases⟩ := refresh_eq_ok h
  have hcovers := plan_covers hplan
  obtain rfl := hr.sameNs
  have hauthentic := hcovers.planned.authentic hwell hserver hinfos fun cur' hcur' => by
    cases hr.snapshot.symm.trans hcur'
    exact hr.authentic
  have hupToDate := (hcovers.planned.upToDate hwell hserver hinfos).congr hr.schemas.symm fun _ => rfl
  obtain ⟨hadded, hreplaced, hremoved, -, rfl⟩ | ⟨next, hindex, hsnapshot, hns, hcfg⟩ := hcases
  · have hget := hcovers.get_eq hlaw hr.snapshot hadded hreplaced hremoved
    exact ⟨cur, rfl, hr.schemas, hr.snapshot, hr.authentic, hr.indexed, hupToDate.congr rfl hget⟩
  · have hget : ∀ sc, next.schemas.get sc = plan.next.schemas.get sc := fun sc => by
      rw [schemas_of_buildNameIndex hindex]
    exact ⟨next, hns, hcfg ▸ hr.schemas, hsnapshot, hauthentic.congr hget,
      NsSnapshot.indexed_of_buildNameIndex hcovers.nameIndex hindex, hupToDate.congr rfl hget⟩

/-- A resolver that is built from the answers of a deployment, and refreshed any number of times, with the moments at
which it read the last listing that it took over. -/
inductive Resolver.Follows (d : Deployment s) (id : Identity) (env : External) (ns : String) (cfg : Config)
    (parent : Option Resolver) : List Nat → Resolver → Prop
  | new {server : Server} {times : Nat → Nat} {r : Resolver} : server.Observes d id ns times →
      newSingleNamespace env server ns cfg parent = .ok r →
      Follows d id env ns cfg parent (server.window ns times) r
  | refreshed {server : Server} {times : Nat → Nat} {window : List Nat} {r r' : Resolver} :
      Follows d id env ns cfg parent window r → server.Observes d id ns times →
      refresh env server r = (.ok (), r') → Follows d id env ns cfg parent (server.window ns times) r'
  /-- A refresh fails, whatever it was answered. -/
  | failed {server : Server} {window : List Nat} {r r' : Resolver} {e : ClientErr} :
      Follows d id env ns cfg parent window r → refresh env server r = (.error e, r') →
      Follows d id env ns cfg parent window r'

theorem Resolver.Follows.mirrors {parent : Option Resolver} {window : List Nat} (hlaw : env.Lawful)
    (hwell : s.ListsWell)
    (h : Resolver.Follows d id env ns cfg parent window r) : ∃ snap, r.Mirrors env d ns cfg window snap := by
  induction h with
  | new hserver hnew => exact mirrors_of_new hwell hserver hnew
  | refreshed _ hserver hrefresh ih =>
    obtain ⟨cur, hcur⟩ := ih
    exact hcur.refresh hlaw hwell hserver hrefresh
  | failed _ hrefresh ih =>
    obtain ⟨cur, hcur⟩ := ih
    obtain ⟨hsnapshot, hns, hcfg⟩ := snapshot_refresh_error hrefresh
    exact ⟨cur, hns.trans hcur.sameNs, hcfg ▸ hcur.schemas, hsnapshot.trans hcur.snapshot, hcur.authentic,
      hcur.indexed, hcur.upToDate⟩

theorem Resolver.Mirrors.findMessageByName {window : List Nat} {f : FileDescriptor} {m : MessageDescriptor}
    (h : r.Mirrors env d ns cfg window snap) (hlaw : env.Lawful) (hss : snap.schemas.get sc = some ss)
    (hf : f ∈ ss.rawDescriptorSet) (hm : .message m ∈ f.types) : r.findMessageByName m.fullName = .ok m := by
  obtain ⟨-, files, hfiles, hcompiled⟩ := h.authentic.sound sc ss hss
  have hf : f ∈ files := (hlaw.newFiles_perm hfiles).mem_iff.mpr hf
  have hvisit : (sc, m.fullName) ∈ snap.visits :=
    NsSnapshot.mem_visits.mpr ⟨ss, hss, f, hcompiled.stores.rangeFiles ▸ hf, NsSnapshot.fullName_mem_range hm⟩
  have hschema : snap.schemaFor m.fullName = some ss := (h.indexed _ _).mpr ⟨sc, hss, hvisit⟩
  have htype : ss.types.typesByName.get m.fullName = some (.message m) :=
    (hcompiled.types.names _ _).mpr ⟨List.mem_flatMap.mpr ⟨f, hf, hm⟩, rfl⟩
  simp [Resolver.findMessageByName, h.snapshot, hschema, TypesChain.findMessageByName, TypesChain.findByName,
    TypesChain.typeByName, htype]

/-- **A client follows the registry.** However the deployment goes on while it reads, and whatever refreshes fail, a
resolver has of each schema a version that was current when it last listed the namespace, compiled from the set that
the registry has for that version at all times. It has every schema that it tracks and that had a current version
throughout the listing, and finds the messages of a version that was current throughout. -/
theorem follows_registry {parent : Option Resolver} {window : List Nat} (hwell : s.ListsWell) (hlaw : env.Lawful)
    (h : Resolver.Follows d id env ns cfg parent window r) :
    ∃ snap, r.snapshot = some snap ∧ snap.UpToDate d ns cfg window ∧
      (∀ sc ss, snap.schemas.get sc = some ss → d.Publishes ns sc ss.version ss.rawDescriptorSet) ∧
      ∀ sc v j row f m, cfg.tracksSchema sc → (∀ k ∈ window, ((d.store k).pointers ns sc).currentVersion = some v) →
        (d.store j).versions.get (ns, sc, v) = some row → f ∈ row.compiled → .message m ∈ f.types →
          r.findMessageByName m.fullName = .ok m := by
  obtain ⟨snap, hr⟩ := h.mirrors hlaw hwell
  refine ⟨snap, hr.snapshot, hr.upToDate, hr.authentic.publishes, fun sc v j row f m htrack hcurrent hrow hf hm => ?_⟩
  obtain ⟨ss, hss⟩ := Option.isSome_iff_exists.mp (hr.upToDate.complete sc htrack fun k hk => by
    rw [hcurrent k hk]
    rfl)
  obtain ⟨-, k, hk, hversion⟩ := hr.upToDate.current sc ss hss
  cases (hcurrent k hk).symm.trans hversion
  have hset := (hr.authentic.publishes sc ss hss).compiled j row hrow
  exact hr.findMessageByName hlaw hss (hset ▸ hf) hm

end Client

namespace Sample

/-- The answers to a client of a namespace whose only schema is at the version. -/
def answers (v : Nat) (source : Bytes) : Client.Server where
  listSchemas _ := ⟨[[⟨"s", some v⟩]], none⟩
  getDescriptor ns sc version :=
    if ns = "n" ∧ sc = "s" ∧ version = v then .ok (v, [file "a.proto" source]) else .error "version not found"
  getNamespaceChain ns := .ok [ns]

/-- A version is published and promoted, and then another one. -/
def twice : Pool registryInterface (Except Err Reply) World :=
  registry.pool [publish [1], .promote "n", publish [1, 2], .promote "n"] .empty

def moments (p₁ p₂ : Pool registryInterface (Except Err Reply) World) :
    Nat → Pool registryInterface (Except Err Reply) World
  | 0 => twice
  | 1 => p₁
  | _ => p₂

theorem promotion_run :
    ∃ p₁, Pool.Reach World.Executes (fun _ _ _ _ => True) twice p₁ ∧
      ∃ p₂, Pool.Reach World.Executes (fun _ _ _ _ => True) p₁ p₂ ∧
      p₁.state.memory.current "n" "s" = none ∧
      (service registry).listSchemas p₁.state.store "n" 0 "" = .ok ⟨[⟨"n", "s", some 1, none, []⟩], ""⟩ ∧
      (service registry).listSchemas p₂.state.store "n" 0 "" = .ok ⟨[⟨"n", "s", some 2, none, []⟩], ""⟩ ∧
      ((service registry).handle anonymousIdentity (.getDescriptor "n" "s" 1) p₁.state).1 =
        .ok (.descriptor ⟨1, [file "a.proto" [1]]⟩) ∧
      ((service registry).handle anonymousIdentity (.getDescriptor "n" "s" 2) p₂.state).1 =
        .ok (.descriptor ⟨2, [file "a.proto" [1, 2]]⟩) ∧
      (p₁.state.store.pointers "n" "s").currentVersion = some 1 ∧
      (p₂.state.store.pointers "n" "s").currentVersion = some 2 :=
  World.exists_reach (List.replicate 15 0 ++ List.replicate 5 1) (Pool.along_true _ _ _) ⟨_, rfl,
    World.exists_reach (List.replicate 3 1 ++ List.replicate 14 2 ++ List.replicate 8 3) (Pool.along_true _ _ _)
      ⟨_, rfl, Option.isNone_iff_eq_none.mp rfl, rfl, rfl, rfl, rfl, rfl, rfl⟩⟩

theorem listsWell_service : (service registry).ListsWell where
  lawful := lawful_service registry
  default := by decide
  max := by decide
  id := by decide +kernel
  fits := by decide

theorem observes_answers {d : Deployment (service registry)} {v k : Nat} {source : Bytes}
    (hlist : (service registry).listSchemas (d.store k) "n" 0 "" = .ok ⟨[⟨"n", "s", some v, none, []⟩], ""⟩)
    (hget : ((service registry).handle anonymousIdentity (.getDescriptor "n" "s" v) (d.world k)).1 =
      .ok (.descriptor ⟨v, [file "a.proto" source]⟩)) :
    (answers v source).Observes d anonymousIdentity "n" fun _ => k := by
  refine ⟨.last ?_, fun sc version version' fdset hanswer => ⟨k, ?_⟩⟩
  · simp only [hlist]
    rfl
  · simp only [answers] at hanswer
    split at hanswer
    · next heq =>
      obtain ⟨-, rfl, rfl⟩ := heq
      cases hanswer
      exact hget
    · cases hanswer

end Sample

/-- A client reads version 1 in the middle of its promotion, and finds version 2 when it is refreshed. -/
theorem follows_registry_promoted : ∃ (d : Deployment (Sample.service Sample.registry)) (r : Client.Resolver),
    ((d.store 1).pointers "n" "s").currentVersion = some 1 ∧ (d.world 1).memory.current "n" "s" = none ∧
      Client.Resolver.Follows d anonymousIdentity Sample.env "n" {} none [2] r ∧
      r.findMessageByName (Sample.message 2).fullName = .ok (Sample.message 2) := by
  let publish (source : Bytes) : PublishRequest :=
    { namespaceID := "n", schemaID := "s", sources := Dict.empty.set "a.proto" source }
  let reqs : List (Identity × Rpc) := [(anonymousIdentity, .publish (publish [1])), (anonymousIdentity, .promote "n"),
    (anonymousIdentity, .publish (publish [1, 2])), (anonymousIdentity, .promote "n")]
  have hcalls : reqs.filterMap (fun req => (Sample.service Sample.registry).callOf req.1 req.2) =
      [Sample.publish [1], .promote "n", Sample.publish [1, 2], .promote "n"] := by
    have hpublish : ∀ source ∈ [[(1 : UInt8)], [1, 2]],
        (Sample.service Sample.registry).checkPublish anonymousIdentity (publish source) = .ok () := by decide +kernel
    have hpromote : (Sample.service Sample.registry).checkNamespaceWrite anonymousIdentity "n" = .ok () := by
      decide +kernel
    simp [reqs, Server.callOf, hpublish, hpromote, Server.whenOk, publish, Sample.publish]
  obtain ⟨p₁, hreach₁, p₂, hreach₂, hmemory, hlist₁, hlist₂, hget₁, hget₂, hcurrent₁, hcurrent₂⟩ := Sample.promotion_run
  have hclient : ∃ r r', Client.newSingleNamespace Sample.env (Sample.answers 1 [1]) "n" {} none = .ok r ∧
      Client.refresh Sample.env (Sample.answers 2 [1, 2]) r = (.ok (), r') := ⟨_, _, rfl, rfl⟩
  obtain ⟨r, r', hnew, hrefresh⟩ := hclient
  let d : Deployment (Sample.service Sample.registry) :=
    { moments := Sample.moments p₁ p₂
      start := ⟨.empty, reqs, .refl, congrArg (Sample.registry.pool · World.empty) hcalls.symm⟩
      next := by
        rintro (_ | _ | k)
        · exact .inl (hreach₁.mono World.Executes.mayFail)
        · exact .inl (hreach₂.mono World.Executes.mayFail)
        · exact .inl .refl }
  have hfollows : Client.Resolver.Follows d anonymousIdentity Sample.env "n" {} none [2] r' :=
    .refreshed (.new (Sample.observes_answers (d := d) (k := 1) hlist₁ hget₁) hnew)
      (Sample.observes_answers (d := d) (k := 2) hlist₂ hget₂) hrefresh
  obtain ⟨-, ⟨j, hj⟩, hcompiled⟩ := d.publishes_of_handle (j := 2) (by decide) hget₂
  obtain ⟨row, hrow⟩ := Option.isSome_iff_exists.mp hj
  obtain ⟨-, -, -, -, hfinds⟩ := Client.follows_registry Sample.listsWell_service Sample.lawful_env hfollows
  refine ⟨d, r', hcurrent₁, hmemory, hfollows, ?_⟩
  refine hfinds "s" 2 j row (Sample.file "a.proto" [1, 2]) _ rfl (fun k hk => ?_) hrow ?_ ?_
  · rw [List.mem_singleton.mp hk]
    exact hcurrent₂
  · rw [hcompiled j row hrow]
    exact List.mem_singleton_self _
  · exact List.mem_cons_of_mem (TypeDescriptor.message _) (List.mem_singleton_self (TypeDescriptor.message _))

end ProtoRegistry
