import ProtoRegistry.Verify.Rebasing
import ProtoRegistry.Verify.Recovery
import Mathlib.Data.String.Basic

/-!
# Publishing twice

A publish reads the proposed versions of its siblings, the current versions of the namespaces above and of
the builtins, and compares the fingerprint of its sources with that of the proposed version of its own
schema. A publish and the promotions of its namespace move none of these, so the same publish after them has
nothing to do.
-/

namespace ProtoRegistry
open RegistryM

/-! ## Fingerprints -/

theorem computeFingerprint_stored (env : External) (files : List FileResult) :
    computeFingerprint env ((Store.sortVersionFiles (files.map fun f => ⟨f.filename, f.blobSHA256⟩)).map fun f =>
      ⟨f.filename, f.blobSHA256, []⟩) = computeFingerprint env files := by
  have hrows : (sortFileResults files).map (fun f => (⟨f.filename, f.blobSHA256⟩ : VersionFile)) =
      Store.sortVersionFiles (files.map fun f => ⟨f.filename, f.blobSHA256⟩) :=
    List.map_insertionSort _ _ _ files fun _ _ _ _ => Iff.rfl
  have hresults : ∀ rows : List VersionFile, sortFileResults ((Store.sortVersionFiles rows).map fun f =>
      ⟨f.filename, f.blobSHA256, []⟩) = (Store.sortVersionFiles rows).map fun f => ⟨f.filename, f.blobSHA256, []⟩ := by
    intro rows
    have hsorted : (Store.sortVersionFiles rows).Pairwise fun a b => a.filename ≤ b.filename :=
      List.pairwise_insertionSort _ _
    apply List.Pairwise.insertionSort_eq
    rw [List.pairwise_map]
    exact hsorted
  unfold computeFingerprint
  rw [hresults, ← hrows, List.map_map, List.map_map]
  rfl

/-! ## What is loaded -/

namespace Store

variable {s s' : Store} {pointer pointer' : SchemaRow → Option Nat} {select select' : String → Bool}

theorem loadSchemas_pairwise (s : Store) (pointer : SchemaRow → Option Nat) (select : String → Bool) :
    (s.loadSchemas pointer select).Pairwise fun a b =>
      a.namespaceID < b.namespaceID ∨ (a.namespaceID = b.namespaceID ∧ a.schemaID ≤ b.schemaID) := by
  have htotal : Std.Total fun a b : CurrentSchema =>
      a.namespaceID < b.namespaceID ∨ (a.namespaceID = b.namespaceID ∧ a.schemaID ≤ b.schemaID) := by
    refine ⟨fun a b => ?_⟩
    obtain hlt | heq | hgt := lt_trichotomy a.namespaceID b.namespaceID
    · exact .inl (.inl hlt)
    · exact (le_total a.schemaID b.schemaID).imp (fun h => .inr ⟨heq, h⟩) fun h => .inr ⟨heq.symm, h⟩
    · exact .inr (.inl hgt)
  have htrans : IsTrans CurrentSchema fun a b : CurrentSchema =>
      a.namespaceID < b.namespaceID ∨ (a.namespaceID = b.namespaceID ∧ a.schemaID ≤ b.schemaID) := by
    refine ⟨fun a b c hab hbc => ?_⟩
    obtain hab | ⟨hab, hab'⟩ := hab
    · obtain hbc | ⟨hbc, -⟩ := hbc
      · exact .inl (hab.trans hbc)
      · exact .inl (hbc ▸ hab)
    · obtain hbc | ⟨hbc, hbc'⟩ := hbc
      · exact .inl (hab ▸ hbc)
      · exact .inr ⟨hab.trans hbc, hab'.trans hbc'⟩
  exact List.pairwise_insertionSort _ _

theorem loadSchemas_filter_eq {p : CurrentSchema → Bool}
    (h : ∀ cs, p cs = true → (cs ∈ s.loadSchemas pointer select ↔ cs ∈ s'.loadSchemas pointer' select')) :
    (s.loadSchemas pointer select).filter p = (s'.loadSchemas pointer' select').filter p := by
  have hkeys := s.loadSchemas_nodup pointer select
  have hmem : ∀ cs, cs ∈ (s.loadSchemas pointer select).filter p ↔ cs ∈ (s'.loadSchemas pointer' select').filter p := by
    intro cs
    rw [List.mem_filter, List.mem_filter]
    exact and_congr_left fun hp => h cs hp
  have hperm : ((s.loadSchemas pointer select).filter p).Perm ((s'.loadSchemas pointer' select').filter p) :=
    (List.perm_ext_iff_of_nodup (hkeys.of_map.filter p) ((s'.loadSchemas_nodup ..).of_map.filter p)).mpr hmem
  refine hperm.eq_of_pairwise (fun a b ha hb hab hba => ?_) ((loadSchemas_pairwise ..).sublist List.filter_sublist)
    ((loadSchemas_pairwise ..).sublist List.filter_sublist)
  -- two schemas that sort before one another have the same key
  have hkey : a.key = b.key := by
    obtain hab | ⟨hns, hab⟩ := hab
    · obtain hba | ⟨hns, -⟩ := hba
      · exact (lt_asymm hab hba).elim
      · exact (hab.ne hns.symm).elim
    · obtain hba | ⟨-, hba⟩ := hba
      · exact (hba.ne hns.symm).elim
      · exact Prod.ext hns (le_antisymm hab hba)
  exact List.inj_on_of_nodup_map hkeys (List.mem_of_mem_filter ha) (List.mem_of_mem_filter ((hmem b).mpr hb)) hkey

theorem mem_loadSchemas_pointers (hnone : pointer ⟨none, none⟩ = none) : cs ∈ s.loadSchemas pointer select ↔
    select cs.namespaceID = true ∧ ∃ row, pointer (s.pointers cs.namespaceID cs.schemaID) = some cs.version ∧
      s.versions.get (cs.namespaceID, cs.schemaID, cs.version) = some row ∧ row.files ≠ [] ∧
      cs = ⟨cs.namespaceID, cs.schemaID, cs.version, row.compiled, row.compilerVersion,
        sortVersionFiles row.files⟩ := by
  rw [mem_loadSchemas]
  refine and_congr_right fun _ => ?_
  cases hschema : s.schemas.get (cs.namespaceID, cs.schemaID) with
  | none => simp [pointers, hschema, hnone]
  | some schema => simp [pointers, hschema]

theorem loadSchemas_eq (h : ∀ cs, cs ∈ s.loadSchemas pointer select ↔ cs ∈ s'.loadSchemas pointer' select') :
    s.loadSchemas pointer select = s'.loadSchemas pointer' select' := by
  simpa using loadSchemas_filter_eq (p := fun _ => true) fun cs _ => h cs

end Store

/-! ## What a publish reads -/

/-- What publishing the schema reads is in the second world what it is in the first. -/
structure World.SameView (ns sc : String) (w w' : World) : Prop where
  namespaces : w'.store.namespaces = w.store.namespaces
  schemas : ∀ {k}, (w.store.schemas.get k).isSome → (w'.store.schemas.get k).isSome
  proposed : ∀ {sc'}, sc' ≠ sc → (w'.store.pointers ns sc').proposed = (w.store.pointers ns sc').proposed
  pointers : ∀ {a}, a ≠ ns → ∀ sc', w'.store.pointers a sc' = w.store.pointers a sc'
  versions : ∀ {a sc'}, ¬ (a = ns ∧ sc' = sc) → ∀ v,
    w'.store.versions.get (a, sc', v) = w.store.versions.get (a, sc', v)
  blobs : ∀ {k source}, w.store.blobs.get k = some source → w'.store.blobs.get k = some source
  parent : w'.memory.parent = w.memory.parent
  found : (w.memory.namespaces.get ns).isSome → (w'.memory.namespaces.get ns).isSome
  memory : ∀ {a}, a ≠ ns → w'.memory.namespaces.get a = w.memory.namespaces.get a

def Op.Promotes (ns : String) : Op → Prop
  | .store (.promote a) | .mem (.swapStaged a _) | .mem (.storeCurrent a ..) => a = ns
  | op => op.IsRead

def Op.Stores (ns sc : String) : Op → Prop
  | .store (.putBlob ..) => True
  | .store (.putVersion a sc' ..) | .store (.setStaged a sc' _) | .mem (.setStaged a sc' _) => a = ns ∧ sc' = sc
  | _ => False

@[simp] theorem SchemaRow.proposed_promote (row : SchemaRow) : row.promote.proposed = row.proposed := by
  obtain ⟨c, _ | v⟩ := row <;> rfl

theorem Namespaces.getOrCreate_of_isSome {m : Namespaces} (h : (m.namespaces.get ns).isSome) :
    m.getOrCreate ns = m := by
  obtain ⟨n, hn⟩ := Option.isSome_iff_exists.mp h
  rw [getOrCreate, hn]

theorem Namespaces.get_modify_of_ne {m : Namespaces} {f : Namespace → Namespace} (hne : a ≠ ns) :
    (m.modify ns f).namespaces.get a = m.namespaces.get a := by
  unfold modify
  split
  · rfl
  · exact Dict.get_set_of_ne _ _ hne

namespace World

variable {w w' w'' : World} {ns sc : String}

theorem SameView.refl (w : World) : w.SameView ns sc w :=
  ⟨rfl, id, fun _ => rfl, fun _ _ => rfl, fun _ _ => rfl, id, rfl, id, fun _ => rfl⟩

theorem SameView.trans (h : w.SameView ns sc w') (h' : w'.SameView ns sc w'') : w.SameView ns sc w'' where
  namespaces := h'.namespaces.trans h.namespaces
  schemas hk := h'.schemas (h.schemas hk)
  proposed hne := (h'.proposed hne).trans (h.proposed hne)
  pointers hne sc' := (h'.pointers hne sc').trans (h.pointers hne sc')
  versions hne v := (h'.versions hne v).trans (h.versions hne v)
  blobs hk := h'.blobs (h.blobs hk)
  parent := h'.parent.trans h.parent
  found hns := h'.found (h.found hns)
  memory hne := (h'.memory hne).trans (h.memory hne)

theorem sameView_modify (w : World) {f : Namespace → Namespace} (hf : ∀ n, (f n).parent = n.parent) :
    w.SameView ns sc ⟨w.store, w.memory.modify ns f⟩ :=
  { SameView.refl w with
    parent := Namespaces.parent_modify hf ns
    found := Namespaces.isSome_modify ns
    memory := Namespaces.get_modify_of_ne }

/-- An operation of the store that leaves the proposed versions of the siblings and the pointers of other
namespaces alone. -/
theorem sameView_store {op : StoreOp} (w : World) (hcreate : ∀ n p, op ≠ .createNamespace n p)
    (hset : ∀ n p actor, op ≠ .setNamespaceParent n p actor)
    (hproposed : ∀ {sc'}, sc' ≠ sc → ((w.store.perform op).2.pointers ns sc').proposed =
      (w.store.pointers ns sc').proposed)
    (htouches : ∀ {a}, a ≠ ns → ∀ sc', ¬ Op.Touches a sc' (.store op))
    (hversions : ∀ {a sc' v row}, op = .putVersion a sc' v row → a = ns ∧ sc' = sc) :
    w.SameView ns sc (perform (.store op) w).2 where
  namespaces := Store.namespaces_perform hcreate hset
  schemas h := Store.isSome_schemas_perform_iff.mpr (.inl h)
  proposed := hproposed
  pointers hne sc' := Store.pointers_perform (htouches hne sc')
  versions {a sc'} hne v := by
    by_cases hput : ∃ a sc' v row, op = .putVersion a sc' v row
    · obtain ⟨a', sc'', v', row, rfl⟩ := hput
      obtain ⟨rfl, rfl⟩ := hversions rfl
      have hkey : (a, sc', v) ≠ (a', sc'', v') := by
        rintro ⟨⟩
        exact hne ⟨rfl, rfl⟩
      simp only [perform, Store.perform, Store.putVersion]
      split
      · rfl
      · exact Dict.get_set_of_ne _ _ hkey
    · refine congrArg (Dict.get · (a, sc', v)) (Store.versions_perform fun a sc' v row heq => ?_)
      exact hput ⟨a, sc', v, row, heq⟩
  blobs := Store.get_blobs_perform op
  parent := rfl
  found := id
  memory _ := rfl

theorem sameView_of_promotes {op : Op} (hop : op.Promotes ns) (w : World) :
    w.SameView ns sc (perform op w).2 := by
  unfold Op.Promotes at hop
  split at hop
  · next a =>
    subst hop
    refine sameView_store w (by simp) (by simp) (fun _ => ?_) (fun hne _ ht => hne ht.symm) (by simp)
    simp only [Store.perform, Store.pointers_promote, SchemaRow.proposed_promote]
  · next a sc' =>
    subst hop
    exact sameView_modify w fun _ => by split <;> rfl
  · next a sc' snap =>
    subst hop
    exact sameView_modify w fun _ => rfl
  · rw [perform_of_isRead hop]
    exact .refl w

theorem sameView_of_stores {op : Op} (hop : op.Stores ns sc) (w : World) :
    w.SameView ns sc (perform op w).2 := by
  unfold Op.Stores at hop
  split at hop
  · refine sameView_store w (by simp) (by simp) (fun _ => ?_) (fun _ _ ht => ht) (by simp)
    rw [Store.pointers_perform id]
  · obtain ⟨rfl, rfl⟩ := hop
    refine sameView_store w (by simp) (by simp) (fun _ => ?_) (fun _ _ ht => ht) fun heq => ?_
    · rw [Store.pointers_perform id]
    · cases heq
      exact ⟨rfl, rfl⟩
  · obtain ⟨rfl, rfl⟩ := hop
    refine sameView_store w (by simp) (by simp) (fun hne => ?_) (fun hne _ ht => hne ht.1.symm) (by simp)
    rw [Store.perform, Store.pointers_setStaged_of_ne fun hkey => hne hkey.2.symm]
  · next a sc' snap =>
    obtain ⟨rfl, rfl⟩ := hop
    exact sameView_modify w fun _ => rfl
  · exact hop.elim

/-! ### The sources it is given -/

theorem SameView.loadNamespaceCurrent (h : w.SameView ns sc w') (hne : a ≠ ns) :
    w'.store.loadNamespaceCurrent a = w.store.loadNamespaceCurrent a := by
  refine Store.loadSchemas_eq fun cs => ?_
  rw [Store.mem_loadSchemas_pointers rfl, Store.mem_loadSchemas_pointers rfl]
  refine and_congr_right fun hselect => ?_
  have hcs : cs.namespaceID ≠ ns := of_decide_eq_true hselect ▸ hne
  rw [h.pointers hcs, h.versions fun hkey => hcs hkey.1]

theorem SameView.siblings (h : w.SameView ns sc w') :
    (w'.store.loadNamespaceProposed ns).filter (·.schemaID ≠ sc) =
      (w.store.loadNamespaceProposed ns).filter (·.schemaID ≠ sc) := by
  refine Store.loadSchemas_filter_eq fun cs hsc => ?_
  rw [Store.mem_loadSchemas_pointers rfl, Store.mem_loadSchemas_pointers rfl]
  refine and_congr_right fun hselect => ?_
  have hsc : cs.schemaID ≠ sc := of_decide_eq_true hsc
  rw [of_decide_eq_true hselect, h.proposed hsc, h.versions fun hkey => hsc hkey.2]

theorem SameView.fetch (h : w.SameView ns sc w') {schemas : List CurrentSchema}
    (hds : w.store.fetch a context schemas = .ok ds) :
    w'.store.fetch a context schemas = .ok ds := by
  obtain ⟨sources, hsources, hds⟩ := except_bind_eq_ok.mp hds
  refine except_bind_eq_ok.mpr ⟨sources, ?_, hds⟩
  refine mapM_eq_ok_mono (fun cs _ l hl => mapM_eq_ok_mono (fun f _ d hd => ?_) hl) hsources
  obtain ⟨blob, hblob, hd⟩ := except_bind_eq_ok.mp hd
  refine except_bind_eq_ok.mpr ⟨blob, mapError_eq_ok.mpr ?_, hd⟩
  have hblob := mapError_eq_ok.mp hblob
  unfold Store.getBlob at hblob ⊢
  split at hblob
  · cases hblob
  · next source hget =>
    rw [h.blobs hget]
    exact hblob

theorem SameView.fetchDeps (h : w.SameView ns sc w') (hdeps : w.store.fetchDeps ns sc = .ok deps) :
    w'.store.fetchDeps ns sc = .ok deps := by
  rw [Store.fetchDeps, h.siblings]
  exact h.fetch hdeps

theorem SameView.fetchTiers (h : w.SameView ns sc w') {ancestors : List String} (hns : ns ∉ ancestors)
    (htiers : w.store.fetchTiers ancestors = .ok tiers) : w'.store.fetchTiers ancestors = .ok tiers := by
  refine mapM_eq_ok_mono (fun a ha tier htier => ?_) htiers
  have hne : a ≠ ns := fun heq => hns (heq ▸ ha)
  obtain ⟨files, hfiles, htier⟩ := except_bind_eq_ok.mp htier
  rw [h.loadNamespaceCurrent hne]
  exact except_bind_eq_ok.mpr ⟨files, h.fetch hfiles, htier⟩

theorem SameView.fetchBuiltinsFor (h : w.SameView ns sc w') (hbuiltins : w.store.fetchBuiltinsFor ns = .ok builtins) :
    w'.store.fetchBuiltinsFor ns = .ok builtins := by
  unfold Store.fetchBuiltinsFor at hbuiltins ⊢
  split at hbuiltins
  · next hne =>
    rw [if_pos hne, h.loadNamespaceCurrent hne.symm]
    exact h.fetch hbuiltins
  · next heq =>
    rw [if_neg heq]
    exact hbuiltins

end World

/-! ### The conflict check -/

/-- One round of `checkAncestorFQNConflicts`. -/
def checkAncestor (child : Snapshot) (a : String) : RegistryM Unit := do
  let allConflicts ← ancestorConflicts child a
  unless allConflicts.isEmpty do
    throw ⟨fqnConflictText a allConflicts, .fqnConflict a allConflicts⟩

theorem exec_checkAncestorFQNConflicts (child : Snapshot) (ns : String) (w : World) :
    (checkAncestorFQNConflicts child ns).exec w =
      ((ancestorsOf w.memory.parent ns).forM (checkAncestor child)).exec w :=
  execute_bind_of_ok (exec_chainFrom chainMaxDepth ns [] w)

/-- The operations that read other namespaces in memory. -/
def Op.ReadsOther (ns : String) : Op → Prop
  | .mem op => Op.ReadsIn (· ≠ ns) (.mem op)
  | .store _ => False

theorem checkAncestor_uses (child : Snapshot) (hne : a ≠ ns) : Uses (Op.ReadsOther ns) (checkAncestor child a) := by
  have hmem : ∀ op : MemOp, Op.ReadsIn (· ≠ ns) (.mem op) → Op.ReadsOther ns (.mem op) := by
    intro op hop
    cases op <;> exact hop
  refine (ancestorConflicts_scoped hmem hne child).bind fun conflicts _ => ?_
  cases conflicts.isEmpty with
  | true => exact .pure trivial
  | false => exact .throw _

theorem World.SameView.perform_eq (h : World.SameView ns sc w w') {op : Op} (hop : op.ReadsOther ns) :
    (World.perform op w).2 = w ∧ World.perform op w' = ((World.perform op w).1, w') := by
  cases op with
  | store op => exact hop.elim
  | mem op =>
    cases op with
    | get | parent | schemaIDs | current | staged =>
      refine ⟨rfl, ?_⟩
      simp only [World.perform, Namespaces.perform, Namespaces.parent, Namespaces.schemaIDs,
        Namespaces.current, Namespaces.staged, Namespaces.slot, h.memory hop]
    | _ => exact hop.elim

theorem World.SameView.unshadowed (h : World.SameView ns sc w w') {child : Snapshot}
    (hcheck : (checkAncestorFQNConflicts child ns).exec w = (.ok (), w)) :
    (checkAncestorFQNConflicts child ns).exec w' = (.ok (), w') := by
  have huses : Uses (Op.ReadsOther ns) ((ancestorsOf w.memory.parent ns).forM (checkAncestor child)) := by
    refine Within.forM fun a ha => checkAncestor_uses child ?_
    rintro rfl
    exact not_mem_ancestorsOf _ _ ha
  have hsame := Prog.Relies.exec_congr (fun op hop => h.perform_eq hop) huses
  rw [exec_checkAncestorFQNConflicts] at hcheck ⊢
  rw [h.parent]
  exact hsame.2.trans (congrArg (fun res => (res.1, w')) hcheck)

theorem checkAncestorFQNConflicts_congr {child child' : Snapshot} (h : child.fileList = child'.fileList) (ns : String) :
    checkAncestorFQNConflicts child ns = checkAncestorFQNConflicts child' ns := by
  simp only [checkAncestorFQNConflicts, ancestorConflicts, detectFQNConflicts, collectFQNs, h]

/-! ## The comparison with the proposed version -/

/-- `isUnchanged` as a function of the store. -/
def Store.unchanged (s : Store) (env : External) (ns sc fingerprint : String) : Bool :=
  match (s.pointers ns sc).proposed with
  | none => false
  | some v => computeFingerprint env ((s.getVersionFiles ns sc v).map fun f => ⟨f.filename, f.blobSHA256, []⟩) =
    fingerprint

theorem exec_isUnchanged (env : External) (ns sc fingerprint : String) (w : World) :
    (isUnchanged env ns sc fingerprint).exec w = (.ok (w.store.unchanged env ns sc fingerprint), w) := by
  have hget : (attempt (store (.getSchema ns sc))).exec w = (.ok (w.store.getSchema ns sc), w) := exec_attempt _ w
  refine (execute_bind_of_ok hget).trans ?_
  unfold Store.unchanged Store.pointers Store.getSchema
  cases w.store.schemas.get (ns, sc) with
  | none => rfl
  | some row =>
    simp only [Option.getD_some]
    cases row.proposed with
    | none => rfl
    | some v =>
      have hfiles : (attempt (store (.getVersionFiles ns sc v))).exec w =
          (.ok (.ok (w.store.getVersionFiles ns sc v)), w) :=
        exec_attempt _ w
      exact execute_bind_of_ok hfiles

theorem unchanged_of_promotes {op : Op} (hop : op.Promotes ns) (env : External) (sc fingerprint : String) (w : World) :
    (World.perform op w).2.store.unchanged env ns sc fingerprint = w.store.unchanged env ns sc fingerprint := by
  unfold Op.Promotes at hop
  split at hop
  · subst hop
    simp only [World.perform, Store.perform, Store.unchanged, Store.pointers_promote, SchemaRow.proposed_promote]
    rfl
  · rfl
  · rfl
  · rw [World.perform_of_isRead hop]

/-! ## The rows a publish makes sure of -/

theorem exec_attempt_read {get : StoreOp} (hget : ∀ s : Store, (s.perform get).2 = s) (w : World) :
    (attempt (store get)).exec w = (.ok (w.store.perform get).1, w) := by
  refine (exec_attempt _ w).trans (Prod.ext rfl ?_)
  exact congrArg (World.mk · w.memory) (hget w.store)

theorem ensureRow_eq_ok (get create : StoreOp) (hget : ∀ s : Store, (s.perform get).2 = s)
    (hcreate : ∀ {s : Store} {u}, (s.perform create).1 = .ok u → ∃ a, ((s.perform create).2.perform get).1 = .ok a)
    (h : (ensureRow get create context).exec w = (.ok u, w')) :
    ∃ a, (w'.store.perform get).1 = .ok a := by
  obtain ⟨res, hres, h⟩ := (execute_bind_eq_ok_of (exec_attempt_read hget w)).mp h
  cases hres
  cases hfirst : (w.store.perform get).1 with
  | ok a =>
    rw [hfirst] at h
    cases h
    exact ⟨a, hfirst⟩
  | error e =>
    rw [hfirst] at h
    obtain ⟨created, hres, h⟩ := (execute_bind_eq_ok_of (exec_attempt (store create) w)).mp h
    cases hres
    simp only [exec_store] at h
    cases hsecond : (w.store.perform create).1 with
    | ok a =>
      rw [hsecond] at h
      cases h
      exact hcreate hsecond
    | error e =>
      rw [hsecond] at h
      obtain ⟨again, hres, h⟩ := (execute_bind_eq_ok_of (exec_attempt_read hget _)).mp h
      cases hres
      cases hthird : ((w.store.perform create).2.perform get).1 with
      | ok a =>
        rw [hthird] at h
        cases h
        exact ⟨a, hthird⟩
      | error e =>
        rw [hthird] at h
        cases h

theorem exec_ensureRow (get create : StoreOp) (hget : ∀ s : Store, (s.perform get).2 = s)
    (hrow : ∃ a, (w.store.perform get).1 = .ok a) (context : String) :
    (ensureRow get create context).exec w = (.ok (), w) := by
  obtain ⟨a, hrow⟩ := hrow
  refine (execute_bind_of_ok (exec_attempt_read hget w)).trans ?_
  rw [hrow]
  rfl

theorem Store.getNamespace_eq_ok {s : Store} : (∃ row, s.getNamespace ns = .ok row) ↔ (s.namespaces.get ns).isSome := by
  unfold getNamespace
  cases s.namespaces.get ns <;> simp

theorem Store.getSchema_eq_ok {s : Store} : (∃ row, s.getSchema ns sc = .ok row) ↔ (s.schemas.get (ns, sc)).isSome := by
  unfold getSchema
  cases s.schemas.get (ns, sc) <;> simp

theorem Store.isSome_of_createNamespace {s : Store} (h : (s.createNamespace ns none).1 = .ok u) :
    ((s.createNamespace ns none).2.namespaces.get ns).isSome := by
  cases hns : s.namespaces.get ns with
  | none =>
    rw [createNamespace_of_missing hns, insertRoot, Dict.get_set_self]
    rfl
  | some row =>
    rw [createNamespace_of_exists (by rw [hns]; rfl)] at h
    cases h

theorem Store.isSome_of_createSchema {s : Store} (h : (s.createSchema ns sc).1 = .ok u) :
    ((s.createSchema ns sc).2.schemas.get (ns, sc)).isSome := by
  unfold createSchema at h ⊢
  split
  · next hrow => exact hrow
  · next hrow =>
    split
    · next hns =>
      rw [if_neg hrow, if_pos hns] at h
      cases h
    · rw [Dict.get_set_self]
      rfl

/-- The namespace and the schema exist, and so does the namespace in memory. -/
structure World.Ready (w : World) (ns sc : String) : Prop where
  namespaces : (w.store.namespaces.get ns).isSome
  schema : (w.store.schemas.get (ns, sc)).isSome
  memory : (w.memory.namespaces.get ns).isSome

theorem World.SameView.ready (h : World.SameView ns sc w w') (hw : w.Ready ns sc) : w'.Ready ns sc :=
  ⟨h.namespaces ▸ hw.namespaces, h.schemas hw.schema, h.found hw.memory⟩

theorem ensureNamespaceAndSchema_eq_ok (h : (ensureNamespaceAndSchema ns sc).exec w = (.ok u, w')) :
    (w'.store.namespaces.get ns).isSome ∧ (w'.store.schemas.get (ns, sc)).isSome := by
  obtain ⟨_, w₁, hns, hsc⟩ := execute_bind_eq_ok.mp h
  have hrow := ensureRow_eq_ok (.getNamespace ns) (.createNamespace ns none) (fun _ => rfl)
    (fun hok => Store.getNamespace_eq_ok.mpr (Store.isSome_of_createNamespace hok)) hns
  have hschema := ensureRow_eq_ok (.getSchema ns sc) (.createSchema ns sc) (fun _ => rfl)
    (fun hok => Store.getSchema_eq_ok.mpr (Store.isSome_of_createSchema hok)) hsc
  have hkept : w'.store.namespaces = w₁.store.namespaces := by
    refine keeps_of_uses (g := (·.store.namespaces)) (A := fun op => op = .store (.getSchema ns sc) ∨
      op = .store (.createSchema ns sc))
      (ensureRow_scoped (.inl rfl) (.inr rfl) _).done (fun op w hop => ?_) hsc
    obtain rfl | rfl := hop
    · rfl
    · exact @Store.namespaces_perform _ (.createSchema ns sc) (by simp) (by simp)
  rw [hkept]
  exact ⟨Store.getNamespace_eq_ok.mp hrow, Store.getSchema_eq_ok.mp hschema⟩

theorem exec_ensureNamespaceAndSchema (hw : w.Ready ns sc) : (ensureNamespaceAndSchema ns sc).exec w = (.ok (), w) := by
  have hns := exec_ensureRow (w := w) (.getNamespace ns) (.createNamespace ns none) (fun _ => rfl)
    (Store.getNamespace_eq_ok.mpr hw.namespaces) "creating namespace"
  refine (execute_bind_of_ok hns).trans ?_
  exact exec_ensureRow (.getSchema ns sc) (.createSchema ns sc) (fun _ => rfl)
    (Store.getSchema_eq_ok.mpr hw.schema) "creating schema"

/-! ## The publish -/

theorem Compiler.compile_version {c : Compiler} {env : External} {sources : Sources}
    (h : c.compile env v sources deps tiers builtins = .ok result) (v' : Nat) :
    c.compile env v' sources deps tiers builtins =
      .ok { result with snapshot := ⟨v', result.snapshot.fileList⟩ } := by
  obtain ⟨fileResults, linked, snap, hcaps, hresults, hlinked, hsnap, rfl⟩ := compile_eq_ok.mp h
  obtain ⟨rfl, hregister⟩ := Snapshot.newFromFiles_eq_ok hsnap
  refine compile_eq_ok.mpr ⟨fileResults, linked, _, hcaps, hresults, hlinked, ?_, rfl⟩
  rw [Snapshot.newFromFiles, hregister]

/-- In this world the request compiles, to files with this fingerprint and without a conflict. -/
structure Registry.Compiles (r : Registry) (req : PublishRequest) (fingerprint : String) (w : World) : Prop where
  ready : w.Ready req.namespaceID req.schemaID
  compiled : ∃ v result, (r.compileNext req).exec w = (.ok (v, result), w) ∧
    (checkAncestorFQNConflicts result.snapshot req.namespaceID).exec w = (.ok (), w) ∧
    computeFingerprint r.env result.files = fingerprint

namespace Registry

variable {r : Registry} {req : PublishRequest} {w w' : World} {ns : String}

theorem compileNext_of_sameView (h : (r.compileNext req).exec w = (.ok (v, result), w))
    (hw : w.SameView req.namespaceID req.schemaID w') :
    ∃ v', (r.compileNext req).exec w' = (.ok (v', { result with snapshot := ⟨v', result.snapshot.fileList⟩ }), w') := by
  obtain ⟨-, -, deps, tiers, builtins, hdeps, htiers, hbuiltins, hcompile⟩ := compileNext_eq_ok.mp h
  refine ⟨_, compileNext_eq_ok.mpr ⟨rfl, rfl, deps, tiers, builtins, hw.fetchDeps hdeps, ?_,
    hw.fetchBuiltinsFor hbuiltins,
    Compiler.compile_version hcompile _⟩⟩
  rw [hw.parent]
  exact hw.fetchTiers (not_mem_ancestorsOf _ _) htiers

theorem Compiles.of_sameView (h : r.Compiles req fingerprint w) (hw : w.SameView req.namespaceID req.schemaID w') :
    r.Compiles req fingerprint w' := by
  obtain ⟨v, result, hnext, hcheck, hfp⟩ := h.compiled
  obtain ⟨v', hnext'⟩ := compileNext_of_sameView hnext hw
  refine ⟨hw.ready h.ready, _, _, hnext', ?_, hfp⟩
  refine (congrArg (RegistryM.exec · w') (checkAncestorFQNConflicts_congr ?_ _)).trans (hw.unshadowed hcheck)
  rfl

theorem storeVersion_uses (v : Nat) (result : CompileResult) (fingerprint : String) :
    Uses (Op.Stores req.namespaceID req.schemaID) (r.storeVersion req v result fingerprint) :=
  (storeVersion_scoped r (fun _ _ => trivial) ⟨rfl, rfl⟩ ⟨rfl, rfl⟩ (fun _ => ⟨rfl, rfl⟩) fingerprint).done

theorem sameView_of_storeVersion (h : (r.storeVersion req v result fingerprint).exec w = (res, w')) :
    w.SameView req.namespaceID req.schemaID w' :=
  inv_of_uses (storeVersion_uses ..) (fun _ w hop hw => hw.trans (World.sameView_of_stores hop w)) (.refl w) h

theorem unchanged_of_storeVersion (hns : (w.memory.namespaces.get req.namespaceID).isSome) (hv : v ≠ 0)
    (h : (r.storeVersion req v result (computeFingerprint r.env result.files)).exec w = (.ok res, w')) :
    w'.store.unchanged r.env req.namespaceID req.schemaID (computeFingerprint r.env result.files) = true := by
  obtain ⟨-, ⟨row, hrow, hfiles, -⟩, -, hstaged, -⟩ := storeVersion_eq_ok hns h
  have hproposed : (w'.store.pointers req.namespaceID req.schemaID).proposed = some v := by
    rw [SchemaRow.proposed, hstaged hv]
    rfl
  have hstored : w'.store.getVersionFiles req.namespaceID req.schemaID v = Store.sortVersionFiles row.files := by
    simp only [Store.getVersionFiles, hrow]
  rw [Store.unchanged, hproposed]
  simp only [hstored, hfiles, computeFingerprint_stored, decide_true]

theorem nextVersion_ne_zero (versions : List Nat) : nextVersion versions ≠ 0 := by
  unfold nextVersion
  split <;> simp

/-- The steps of a publish: it makes sure of its rows, compiles, and stores a version that is not there yet. -/
theorem publish_eq_ok (h : (r.publish req).exec w = (.ok res, w')) :
    r.authz.canPublish req.namespaceID req.schemaID = .ok () ∧ r.checkRequest req = .ok () ∧
      ∃ w₁ w₂ v result, (ensureNamespaceAndSchema req.namespaceID req.schemaID).exec w = (.ok (), w₁) ∧
        w₂ = ⟨w₁.store, w₁.memory.getOrCreate req.namespaceID⟩ ∧
        (r.compileNext req).exec w₂ = (.ok (v, result), w₂) ∧
        (checkAncestorFQNConflicts result.snapshot req.namespaceID).exec w₂ = (.ok (), w₂) ∧
        (w₂.store.unchanged r.env req.namespaceID req.schemaID (computeFingerprint r.env result.files) = true ∧
            res = { noChange := true, fingerprint := computeFingerprint r.env result.files } ∧ w' = w₂ ∨
          (r.storeVersion req v result (computeFingerprint r.env result.files)).exec w₂ = (.ok res, w')) := by
  obtain ⟨_, hauthz, h⟩ := (execute_bind_eq_ok_of (execute_liftExcept ..)).mp h
  obtain ⟨_, hrequest, h⟩ := (execute_bind_eq_ok_of (execute_liftExcept ..)).mp h
  obtain ⟨_, w₁, hrows, h⟩ := execute_bind_eq_ok.mp h
  obtain ⟨_, -, h⟩ := (execute_bind_eq_ok_of (exec_mem (.getOrCreate _) w₁)).mp h
  obtain ⟨⟨v, result⟩, w₂, hnext, h⟩ := execute_bind_eq_ok.mp h
  obtain ⟨rfl, -⟩ := compileNext_eq_ok.mp hnext
  obtain ⟨_, w₃, hcheck, h⟩ := execute_bind_eq_ok.mp h
  cases eq_of_reads (checkAncestorFQNConflicts_reads ..) hcheck
  refine ⟨hauthz, hrequest, w₁, _, v, result, hrows, rfl, hnext, hcheck, ?_⟩
  obtain ⟨noChange, hsame, h⟩ := (execute_bind_eq_ok_of (exec_isUnchanged ..)).mp h
  cases noChange with
  | true =>
    cases h
    exact .inl ⟨Except.ok.inj hsame, rfl, rfl⟩
  | false => exact .inr h

theorem compiles_of_publish (h : (r.publish req).exec w = (.ok res, w')) :
    r.Compiles req res.fingerprint w' ∧
      w'.store.unchanged r.env req.namespaceID req.schemaID res.fingerprint = true := by
  obtain ⟨-, -, w₁, w₂, v, result, hrows, hw₂, hnext, hcheck, hstored⟩ := publish_eq_ok h
  have hready : w₂.Ready req.namespaceID req.schemaID := by
    obtain ⟨hnamespace, hschema⟩ := ensureNamespaceAndSchema_eq_ok hrows
    subst hw₂
    exact ⟨hnamespace, hschema, Namespaces.isSome_getOrCreate _⟩
  have hcompiles : r.Compiles req (computeFingerprint r.env result.files) w₂ := ⟨hready, v, result, hnext, hcheck, rfl⟩
  obtain ⟨hsame, rfl, rfl⟩ | hstored := hstored
  · exact ⟨hcompiles, hsame⟩
  · obtain ⟨-, hv, -⟩ := compileNext_eq_ok.mp hnext
    have hunchanged := unchanged_of_storeVersion hready.memory (hv ▸ nextVersion_ne_zero _) hstored
    have hview := sameView_of_storeVersion hstored
    obtain ⟨rfl, -⟩ := storeVersion_eq_ok hready.memory hstored
    exact ⟨hcompiles.of_sameView hview, hunchanged⟩

theorem exec_publish_of_unchanged (hauthz : r.authz.canPublish req.namespaceID req.schemaID = .ok ())
    (hrequest : r.checkRequest req = .ok ()) (hcompiles : r.Compiles req fingerprint w)
    (hsame : w.store.unchanged r.env req.namespaceID req.schemaID fingerprint = true) :
    (r.publish req).exec w = (.ok { noChange := true, fingerprint }, w) := by
  obtain ⟨v, result, hnext, hcheck, hfp⟩ := hcompiles.compiled
  have hget : (mem (.getOrCreate req.namespaceID)).exec w = (.ok (), w) :=
    congrArg (fun m => (Except.ok (), World.mk w.store m)) (Namespaces.getOrCreate_of_isSome hcompiles.ready.memory)
  have hunchanged := exec_isUnchanged r.env req.namespaceID req.schemaID (computeFingerprint r.env result.files) w
  rw [hfp, hsame] at hunchanged
  refine (execute_bind_eq_ok_of (execute_liftExcept ..)).mpr ⟨(), hauthz, ?_⟩
  refine (execute_bind_eq_ok_of (execute_liftExcept ..)).mpr ⟨(), hrequest, ?_⟩
  refine (execute_bind_of_ok (exec_ensureNamespaceAndSchema hcompiles.ready)).trans ?_
  refine (execute_bind_of_ok hget).trans ?_
  refine (execute_bind_of_ok hnext).trans ?_
  refine (execute_bind_of_ok hcheck).trans ?_
  dsimp only
  rw [hfp]
  exact (execute_bind_of_ok hunchanged).trans rfl

/-! ## The promotions -/

theorem promotes_of_readsIn (op : MemOp) (h : Op.ReadsIn P (.mem op)) : Op.Promotes ns (.mem op) := by
  cases op <;> trivial

theorem promote_uses (r : Registry) (ns : String) : Uses (Op.Promotes ns) (r.promote ns) :=
  (promote_scoped (P := fun _ => True) promotes_of_readsIn r trivial rfl (fun _ => rfl) fun _ _ => rfl).done

theorem promotions_keep (r : Registry) (req : PublishRequest) (fingerprint : String) (n : Nat) (w : World) :
    w.SameView req.namespaceID req.schemaID (r.runAll (List.replicate n (.promote req.namespaceID)) w) ∧
      (r.runAll (List.replicate n (.promote req.namespaceID)) w).store.unchanged r.env req.namespaceID req.schemaID
        fingerprint = w.store.unchanged r.env req.namespaceID req.schemaID fingerprint := by
  induction n with
  | zero => exact ⟨.refl w, rfl⟩
  | succ n ih =>
    have huses : Uses (Op.Promotes req.namespaceID) (r.run (.promote req.namespaceID)) :=
      (promote_uses r req.namespaceID).bind fun _ => .pure _
    rw [List.replicate_succ', runAll_append]
    refine ⟨?_, ?_⟩
    · exact inv_of_uses huses (fun _ w hop hw => hw.trans (World.sameView_of_promotes hop w)) ih.1 rfl
    · refine (keeps_of_uses (g := fun w => w.store.unchanged r.env req.namespaceID req.schemaID fingerprint) huses
        (fun _ w hop => unchanged_of_promotes hop ..) rfl).trans ih.2

/-- **Publishing is idempotent**, also when the namespace is promoted in between. -/
theorem publish_again (hpublish : r.exec (.publish req) w = (.ok (.published res), w')) (n : Nat) :
    let w'' := r.runAll (List.replicate n (.promote req.namespaceID)) w'
    r.exec (.publish req) w'' = (.ok (.published { noChange := true, fingerprint := res.fingerprint }), w'') := by
  obtain ⟨res', w₁, h, hreply⟩ := execute_bind_eq_ok.mp hpublish
  cases hreply
  obtain ⟨hauthz, hrequest, -⟩ := publish_eq_ok h
  obtain ⟨hcompiles, hsame⟩ := compiles_of_publish h
  obtain ⟨hview, hkept⟩ := r.promotions_keep req res.fingerprint n w'
  refine execute_bind_of_ok (exec_publish_of_unchanged hauthz hrequest (hcompiles.of_sameView hview) ?_)
  rw [hkept]
  exact hsame

end Registry

/-- The sources are published again after two promotions. -/
theorem publish_again_promoted :
    let w := (Sample.registry.exec (Sample.publish [1, 2]) .empty).2
    let w' := Sample.registry.runAll (List.replicate 2 (.promote "n")) w
    w'.store.pointers "n" "s" = ⟨some 1, none⟩ ∧ ∃ fingerprint, Sample.registry.exec (Sample.publish [1, 2]) w' =
      (.ok (.published { noChange := true, fingerprint }), w') := by
  have hreply : ∃ res, (Sample.registry.exec (Sample.publish [1, 2]) .empty).1 = .ok (.published res) := ⟨_, rfl⟩
  obtain ⟨res, hreply⟩ := hreply
  exact ⟨by decide +kernel, res.fingerprint, Registry.publish_again (Prod.ext hreply rfl) 2⟩

end ProtoRegistry
