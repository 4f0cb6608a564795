import ProtoRegistry.Verify.Calls

/-!
# Pointers, slots and stored versions

The store keeps two pointers for each schema, the process keeps two snapshots in a slot. Here is what
each operation does to both of them, and the invariant `World.Sound` that every call keeps under every
interleaving: pointers and snapshots are of stored versions. What a call has been told about stored
versions stays true (`World.Knows`), since versions are never changed or deleted.
-/

namespace ProtoRegistry

/-! ## Pointers and slots -/

/-- The pointers of a schema, both absent when it has no row. -/
def Store.pointers (s : Store) (ns sc : String) : SchemaRow :=
  (s.schemas.get (ns, sc)).getD ⟨none, none⟩

/-- The versions of the snapshots in the slot of a schema. -/
def Namespaces.pointers (m : Namespaces) (ns sc : String) : SchemaRow :=
  ⟨(m.current ns sc).map (·.version), (m.staged ns sc).map (·.version)⟩

@[simp] theorem SchemaRow.stagedVersion_promote (row : SchemaRow) : row.promote.stagedVersion = none := by
  obtain ⟨c, _ | v⟩ := row <;> rfl

@[simp] theorem SchemaRow.currentVersion_promote (row : SchemaRow) :
    row.promote.currentVersion = row.proposed := by
  obtain ⟨c, _ | v⟩ := row <;> rfl

theorem SchemaRow.proposed_eq_some {row : SchemaRow} : row.proposed = some v ↔
    row.stagedVersion = some v ∨ row.stagedVersion = none ∧ row.currentVersion = some v := by
  obtain ⟨c, _ | v'⟩ := row <;> simp [proposed]

/-- The operation writes the pointers or the slot of the schema. -/
def Op.Touches (ns sc : String) : Op → Prop
  | .store (.setStaged ns' sc' _) => ns' = ns ∧ sc' = sc
  | .store (.promote ns') | .store (.discardStaging ns') => ns' = ns
  | .mem (.setCurrent ns' sc' _) | .mem (.setStaged ns' sc' _) | .mem (.swapStaged ns' sc')
  | .mem (.storeCurrent ns' sc' _) | .mem (.clearStaged ns' sc') => ns' = ns ∧ sc' = sc
  | _ => False

namespace Store

variable {s : Store} {ns sc : String} {v : Nat}

theorem pointers_createSchema (ns' sc' : String) :
    (s.createSchema ns' sc').2.pointers ns sc = s.pointers ns sc := by
  simp only [createSchema, pointers, Option.isSome_iff_ne_none]
  grind [Dict.get_set]

theorem pointers_setStaged (hrow : (s.schemas.get (ns, sc)).isSome) (hv : v ≠ 0) :
    (s.setStaged ns sc v).pointers ns sc = ⟨(s.pointers ns sc).currentVersion, some v⟩ := by
  obtain ⟨row, hrow⟩ := Option.isSome_iff_exists.mp hrow
  simp [setStaged, pointers, hrow, hv]

theorem pointers_setStaged_of_ne {ns' sc' : String} (hkey : ¬ (ns' = ns ∧ sc' = sc)) :
    (s.setStaged ns' sc' v).pointers ns sc = s.pointers ns sc := by
  unfold setStaged pointers
  grind [Dict.get_set]

theorem currentVersion_setStaged (ns' sc' : String) :
    ((s.setStaged ns' sc' v).pointers ns sc).currentVersion = (s.pointers ns sc).currentVersion := by
  unfold setStaged pointers
  grind [Dict.get_set]

theorem pointers_promote : (s.promote ns).2.pointers ns sc = (s.pointers ns sc).promote := by
  cases hrow : s.schemas.get (ns, sc) <;> simp [promote, pointers, hrow, SchemaRow.promote]

theorem pointers_promote_of_ne (hns : ns' ≠ ns) :
    (s.promote ns').2.pointers ns sc = s.pointers ns sc := by
  cases hrow : s.schemas.get (ns, sc) <;> simp [promote, pointers, hrow, hns.symm]

theorem pointers_discardStaging :
    (s.discardStaging ns).pointers ns sc = ⟨(s.pointers ns sc).currentVersion, none⟩ := by
  cases hrow : s.schemas.get (ns, sc) <;> simp [discardStaging, pointers, hrow]

theorem pointers_discardStaging_of_ne (hns : ns' ≠ ns) :
    (s.discardStaging ns').pointers ns sc = s.pointers ns sc := by
  cases hrow : s.schemas.get (ns, sc) <;> simp [discardStaging, pointers, hrow, hns.symm]

theorem setNamespaceParent_frame (id : String) (p : Option String) (actor : String) :
    let s' := (s.perform (.setNamespaceParent id p actor)).2
    s'.schemas = s.schemas ∧ s'.versions = s.versions ∧ s'.blobs = s.blobs := by
  simp only [perform, setNamespaceParent, writeParent, recordNamespaceParentEvent]
  repeat' split
  all_goals exact ⟨rfl, rfl, rfl⟩

theorem namespaces_perform {op : StoreOp} (hcreate : ∀ n p, op ≠ .createNamespace n p)
    (hset : ∀ n p actor, op ≠ .setNamespaceParent n p actor) : (s.perform op).2.namespaces = s.namespaces := by
  cases op with
  | createNamespace n p => exact (hcreate n p rfl).elim
  | setNamespaceParent n p actor => exact (hset n p actor rfl).elim
  | _ =>
    simp only [perform, putBlob, createSchema, putVersion, setStaged, promote, discardStaging]
    repeat' split
    all_goals rfl

/-- Only `putVersion` writes versions. -/
theorem versions_perform {op : StoreOp} (hop : ∀ ns sc v row, op ≠ .putVersion ns sc v row) :
    (s.perform op).2.versions = s.versions := by
  cases op with
  | putVersion ns sc v row => exact (hop ns sc v row rfl).elim
  | setNamespaceParent id p actor => exact (setNamespaceParent_frame id p actor).2.1
  | _ =>
    simp only [perform, createNamespace, putBlob, createSchema, setStaged, promote, discardStaging]
    repeat' split
    all_goals rfl

theorem pointers_perform {op : StoreOp} (hop : ¬ Op.Touches ns sc (.store op)) :
    (s.perform op).2.pointers ns sc = s.pointers ns sc := by
  cases op with
  | createSchema ns' sc' => exact pointers_createSchema ns' sc'
  | setStaged ns' sc' v => exact pointers_setStaged_of_ne hop
  | promote ns' => exact pointers_promote_of_ne hop
  | discardStaging ns' => exact pointers_discardStaging_of_ne hop
  | setNamespaceParent id p actor =>
    obtain ⟨hschemas, -, -⟩ := setNamespaceParent_frame (s := s) id p actor
    rw [pointers, hschemas]
    rfl
  | _ =>
    simp only [perform, createNamespace, putBlob, putVersion]
    repeat' split
    all_goals rfl

theorem insertViolation_eq_none_iff [DecidableEq κ] {table foreignKey : String} {key : α → κ} {dangling : α → Bool}
    {context : α → String} {inserted : List κ} {rows : List α} :
    insertViolation table foreignKey key dangling context inserted rows = none ↔
      (rows.map key).Nodup ∧ (∀ row ∈ rows, key row ∉ inserted) ∧ ∀ row ∈ rows, dangling row = false := by
  induction rows generalizing inserted with
  | nil => simp [insertViolation]
  | cons row rows ih =>
    simp only [insertViolation, List.map_cons, List.nodup_cons, List.mem_map, List.forall_mem_cons]
    grind

/-- A row is accepted when its version is new, its schema, its blobs and the namespaces of its dependencies exist,
and its files and dependencies are distinct. -/
theorem versionViolation_eq_none_iff {row : VersionRow} : s.versionViolation ns sc v row = none ↔
    s.versions.get (ns, sc, v) = none ∧ (s.schemas.get (ns, sc)).isSome ∧
      ((row.files.map (·.filename)).Nodup ∧ ∀ f ∈ row.files, (s.blobs.get (ns, f.blobSHA256)).isSome) ∧
      (row.deps.map fun d => (d.depNamespaceID, d.depSchemaID, d.depFilename)).Nodup ∧
      ∀ d ∈ row.deps, (s.namespaces.get d.depNamespaceID).isSome := by
  have hsome : ∀ {α : Type} (o : Option α), o.isNone = false ↔ o.isSome := fun o => by cases o <;> simp
  unfold versionViolation
  split
  · next hversion => simp [Option.isSome_iff_ne_none.mp hversion]
  · next hversion =>
    split
    · next hschema => simp [hschema]
    · next hschema =>
      simp only [Option.or_eq_none_iff, insertViolation_eq_none_iff, hsome, List.not_mem_nil,
        not_false_eq_true, implies_true,
        true_and]
      simp [Option.isSome_iff_ne_none.mpr hschema, Option.not_isSome_iff_eq_none.mp hversion]

theorem isSome_schemas_perform_iff {op : StoreOp} : ((s.perform op).2.schemas.get (ns, sc)).isSome ↔
    (s.schemas.get (ns, sc)).isSome ∨ op = .createSchema ns sc ∧ (s.namespaces.get ns).isSome := by
  cases op with
  | createSchema ns' sc' =>
    simp only [perform, createSchema, Option.isSome_iff_ne_none]
    grind [Dict.get_set]
  | setStaged ns' sc' v =>
    simp only [perform, setStaged]
    grind [Dict.get_set]
  | promote ns' => simp [perform, promote]
  | discardStaging ns' => simp [perform, discardStaging]
  | setNamespaceParent id p actor => simp [(setNamespaceParent_frame (s := s) id p actor).1]
  | _ =>
    simp only [perform, createNamespace, putBlob, putVersion]
    repeat' split
    all_goals simp

theorem get_versions_perform (op : StoreOp) {k : String × String × Nat} {row : VersionRow}
    (hk : s.versions.get k = some row) : (s.perform op).2.versions.get k = some row := by
  cases op with
  | putVersion ns sc v row' =>
    simp only [perform, putVersion]
    grind [Dict.get_set, versionViolation_eq_none_iff]
  | _ => rwa [versions_perform (by simp)]

theorem of_get_versions_perform {op : StoreOp} {row : VersionRow}
    (hrow : (s.perform op).2.versions.get (ns, sc, v) = some row) :
    s.versions.get (ns, sc, v) = some row ∨
      op = .putVersion ns sc v row ∧ s.versionViolation ns sc v row = none := by
  cases op with
  | putVersion ns' sc' v' row' =>
    simp only [perform, putVersion] at hrow
    grind [Dict.get_set]
  | _ =>
    rw [versions_perform (by simp)] at hrow
    exact .inl hrow

end Store

namespace Namespaces

variable {m : Namespaces} {ns sc ns' sc' : String}

theorem isSome_modify {f : Namespace → Namespace} (id : String)
    (hns : (m.namespaces.get ns).isSome) : ((m.modify id f).namespaces.get ns).isSome := by
  unfold modify
  split
  · exact hns
  · exact Dict.isSome_get_set _ _ hns

theorem slot_modifySlot {f : SchemaSlot → SchemaSlot} (hns : (m.namespaces.get ns).isSome) :
    (m.modifySlot ns sc f).slot ns sc = some (f ((m.slot ns sc).getD ⟨none, none⟩)) := by
  obtain ⟨n, hn⟩ := Option.isSome_iff_exists.mp hns
  simp [modifySlot, modify, slot, hn]

theorem slot_modifySlot_of_ne {f : SchemaSlot → SchemaSlot} (hkey : ¬ (ns' = ns ∧ sc' = sc)) :
    (m.modifySlot ns' sc' f).slot ns sc = m.slot ns sc := by
  unfold modifySlot modify
  split
  · rfl
  · next n hn =>
    by_cases hns : ns = ns'
    · subst hns
      have hsc : sc ≠ sc' := fun hsc => hkey ⟨rfl, hsc.symm⟩
      simp [slot, hn, Dict.get_set_of_ne _ _ hsc]
    · simp [slot, Dict.get_set_of_ne _ _ hns]

theorem slot_modifySlot_of_missing {f : SchemaSlot → SchemaSlot} (hns : m.namespaces.get ns = none) :
    m.modifySlot ns sc f = m := by
  simp [modifySlot, modify, hns]

theorem slot_of_missing (hns : m.namespaces.get ns = none) : m.slot ns sc = none := by
  simp [slot, hns]

@[simp] theorem current_setStaged (snap : Option Snapshot) :
    (m.setStaged ns sc snap).current ns sc = m.current ns sc := by
  cases hns : m.namespaces.get ns with
  | none => rw [setStaged, slot_modifySlot_of_missing hns]
  | some n =>
    rw [current, setStaged, slot_modifySlot (by simp [hns]), current]
    cases m.slot ns sc <;> rfl

theorem staged_setStaged {snap : Option Snapshot} (hns : (m.namespaces.get ns).isSome) :
    (m.setStaged ns sc snap).staged ns sc = snap := by
  rw [staged, setStaged, slot_modifySlot hns]
  rfl

theorem slot_clearStaged {ns' sc' : String} : (m.clearStaged ns' sc').slot ns sc =
    if ns' = ns ∧ sc' = sc then (m.slot ns sc).map ({ · with staged := none }) else m.slot ns sc := by
  unfold clearStaged modify
  split
  · next hn =>
    split
    · next hkey => rw [← hkey.1, slot_of_missing hn]; rfl
    · rfl
  · next n hn =>
    by_cases hns : ns = ns'
    · subst hns
      cases hslot : n.schemas.get sc' with
      | none => by_cases hsc : sc' = sc <;> simp_all [slot]
      | some slot' =>
        by_cases hsc : sc' = sc
        · simp [slot, hn, ← hsc, hslot]
        · simp [slot, hn, hslot, hsc, Dict.get_set_of_ne _ _ (Ne.symm hsc)]
    · simp [slot, Ne.symm hns, Dict.get_set_of_ne _ _ hns]

@[simp] theorem staged_clearStaged : (m.clearStaged ns sc).staged ns sc = none := by
  simp only [staged, slot_clearStaged, and_self, if_true]
  cases m.slot ns sc <;> rfl

@[simp] theorem current_clearStaged (ns' sc' : String) : (m.clearStaged ns' sc').current ns sc = m.current ns sc := by
  simp only [current, slot_clearStaged]
  split
  · cases m.slot ns sc <;> rfl
  · rfl

theorem current_setCurrent {snap : Option Snapshot} (hns : (m.namespaces.get ns).isSome) :
    (m.setCurrent ns sc snap).current ns sc = snap := by
  rw [current, setCurrent, slot_modifySlot hns]
  rfl

@[simp] theorem staged_setCurrent (snap : Option Snapshot) :
    (m.setCurrent ns sc snap).staged ns sc = m.staged ns sc := by
  cases hns : m.namespaces.get ns with
  | none => rw [setCurrent, slot_modifySlot_of_missing hns]
  | some n =>
    rw [staged, setCurrent, slot_modifySlot (by simp [hns]), staged]
    cases m.slot ns sc <;> rfl

@[simp] theorem slot_setParent (p : Option String) : (m.setParent ns' p).slot ns sc = m.slot ns sc := by
  unfold setParent modify
  split
  · rfl
  · next n hn =>
    by_cases hns : ns = ns'
    · subst hns
      simp [slot, hn]
    · simp [slot, Dict.get_set_of_ne _ _ hns]

@[simp] theorem slot_getOrCreate : (m.getOrCreate ns').slot ns sc = m.slot ns sc := by
  unfold getOrCreate
  split
  · next hn =>
    by_cases hns : ns = ns'
    · subst hns
      simp [slot, hn]
    · simp [slot, Dict.get_set_of_ne _ _ hns]
  · rfl

theorem slot_perform {op : MemOp} (hop : ¬ Op.Touches ns sc (.mem op)) :
    (m.perform op).2.slot ns sc = m.slot ns sc := by
  cases op with
  | setParent id p => exact slot_setParent p
  | getOrCreate id => exact slot_getOrCreate
  | setCurrent id sc' snap => exact slot_modifySlot_of_ne hop
  | setStaged id sc' snap => exact slot_modifySlot_of_ne hop
  | storeCurrent id sc' snap => exact slot_modifySlot_of_ne hop
  | swapStaged id sc' | clearStaged id sc' => exact slot_clearStaged.trans (if_neg hop)
  | _ => rfl

theorem isSome_perform (op : MemOp) (hns : (m.namespaces.get ns).isSome) :
    ((m.perform op).2.namespaces.get ns).isSome := by
  cases op with
  | getOrCreate id =>
    simp only [perform, getOrCreate]
    split
    · exact Dict.isSome_get_set _ _ hns
    · exact hns
  | setParent | setCurrent | setStaged | swapStaged | storeCurrent | clearStaged =>
    exact isSome_modify _ hns
  | _ => exact hns

theorem isSome_of_staged (hstaged : m.staged ns sc = some snap) : (m.namespaces.get ns).isSome := by
  cases hns : m.namespaces.get ns with
  | none => simp [staged, slot_of_missing hns] at hstaged
  | some n => rfl

theorem pointers_setStaged {snap : Snapshot} (hns : (m.namespaces.get ns).isSome) :
    (m.setStaged ns sc (some snap)).pointers ns sc =
      ⟨(m.pointers ns sc).currentVersion, some snap.version⟩ := by
  simp [pointers, staged_setStaged hns]

theorem pointers_clearStaged :
    (m.clearStaged ns sc).pointers ns sc = ⟨(m.pointers ns sc).currentVersion, none⟩ := by
  simp [pointers]

theorem pointers_setCurrent {snap : Snapshot} (hns : (m.namespaces.get ns).isSome) :
    (m.setCurrent ns sc (some snap)).pointers ns sc =
      ⟨some snap.version, (m.pointers ns sc).stagedVersion⟩ := by
  simp [pointers, current_setCurrent hns]

theorem pointers_of_missing (hslot : m.slot ns sc = none) : m.pointers ns sc = ⟨none, none⟩ := by
  simp [pointers, current, staged, hslot]

theorem schemaIDs_nodup (m : Namespaces) (ns : String) : (m.schemaIDs ns).Nodup := by
  unfold schemaIDs
  split
  · exact List.nodup_nil
  · next n _ => exact n.schemas.nodup

theorem visits_schemaIDs (m : Namespaces) (ns : String) : m.Visits ns (m.schemaIDs ns) :=
  ⟨m.schemaIDs_nodup ns, fun _ hsc => hsc⟩

theorem mem_schemaIDs : sc ∈ m.schemaIDs ns ↔ (m.slot ns sc).isSome := by
  cases hns : m.namespaces.get ns with
  | none => simp [schemaIDs, slot, hns]
  | some n => simp [schemaIDs, slot, hns, n.schemas.mem_keys]

end Namespaces

/-! ## What stays true -/

def Store.Holds (s : Store) (ns sc : String) (snap : Snapshot) : Prop :=
  ∃ row, s.versions.get (ns, sc, snap.version) = some row ∧ snap.fileList.Perm row.compiled

namespace World

/-- An operation that is not a `Range` has the effect it has alone. -/
theorem Executes.cases {op : Op} {res : op.Res} (hstep : Executes op w res w') :
    perform op w = (res, w') ∨ w' = w ∧ ∃ ns visited, w.memory.Visits ns visited ∧
      (⟨op, res⟩ : (op : Op) × op.Res) = ⟨.mem (.schemaIDs ns), visited⟩ := by
  unfold Executes at hstep
  split at hstep
  · exact .inr ⟨hstep.2, _, _, hstep.1, rfl⟩
  · exact .inl hstep

theorem Executes.state {op : Op} {res : op.Res} (hstep : Executes op w res w') : w' = (perform op w).2 := by
  obtain heq | ⟨rfl, ns, visited, -, heq⟩ := hstep.cases
  · rw [heq]
  · cases heq
    rfl

theorem executes_perform (op : Op) (w : World) : Executes op w (perform op w).1 (perform op w).2 := by
  unfold Executes
  split
  · exact ⟨Namespaces.visits_schemaIDs _ _, rfl⟩
  · rfl

theorem exists_reach {ok : World → List (Event registryInterface) → Nat → Op → Prop}
    {p : Pool registryInterface α World} {P : Pool registryInterface α World → Prop} (is : List Nat)
    (hok : Pool.Along perform ok is p) (h : ∃ p', Pool.runSchedule (fun _ _ => true) perform is p = some p' ∧ P p') :
    ∃ p', Pool.Reach Executes ok p p' ∧ P p' := by
  obtain ⟨p', hreach, hp'⟩ := Pool.exists_reach is hok h
  refine ⟨p', hreach.mono fun hstep => ?_, hp'⟩
  obtain ⟨rfl, rfl⟩ := Prod.mk.inj hstep.2
  exact executes_perform _ _

/-- Stored versions and the namespaces in memory stay. -/
structure Grows (w w' : World) : Prop where
  versions : ∀ {k row}, w.store.versions.get k = some row → w'.store.versions.get k = some row
  namespaces : ∀ {ns}, (w.memory.namespaces.get ns).isSome → (w'.memory.namespaces.get ns).isSome

theorem Grows.refl (w : World) : w.Grows w := ⟨id, id⟩

theorem Grows.trans {w w' w'' : World} (h : w.Grows w') (h' : w'.Grows w'') : w.Grows w'' :=
  ⟨fun hk => h'.versions (h.versions hk), fun hns => h'.namespaces (h.namespaces hns)⟩

theorem grows_perform (op : Op) (w : World) : w.Grows (perform op w).2 := by
  cases op with
  | store op => exact ⟨Store.get_versions_perform op, id⟩
  | mem op => exact ⟨id, Namespaces.isSome_perform op⟩

theorem Grows.holds {w w' : World} (h : w.Grows w') {snap : Snapshot}
    (hsnap : w.store.Holds ns sc snap) : w'.store.Holds ns sc snap := by
  obtain ⟨row, hrow, hperm⟩ := hsnap
  exact ⟨row, h.versions hrow, hperm⟩

theorem pointers_perform {op : Op} {w : World} (hop : ¬ op.Touches ns sc) :
    (perform op w).2.store.pointers ns sc = w.store.pointers ns sc ∧
      (perform op w).2.memory.slot ns sc = w.memory.slot ns sc := by
  cases op with
  | store op => exact ⟨Store.pointers_perform hop, rfl⟩
  | mem op => exact ⟨rfl, Namespaces.slot_perform hop⟩

/-- What a call has learnt from an operation and its result, about data that stays. -/
def Fact (w : World) : (op : Op) → op.Res → Prop
  | .store (.putVersion ns sc v row), .ok _ => w.store.versions.get (ns, sc, v) = some row
  | .store (.getVersion ns sc v), .ok row => w.store.versions.get (ns, sc, v) = some row
  | .mem (.get ns), true => (w.memory.namespaces.get ns).isSome
  | .mem (.getOrCreate ns), _ => (w.memory.namespaces.get ns).isSome
  | .mem (.current ns sc), some snap => w.store.Holds ns sc snap
  | .mem (.staged ns sc), some snap => w.store.Holds ns sc snap
  | _, _ => True

/-- A call's history is true of the world. -/
structure Knows (w : World) (h : CallHistory) : Prop where
  facts : ∀ e ∈ h, w.Fact e.1 e.2
  /-- The snapshot between its two slots. -/
  half : ∀ {ns sc snap rest}, mirror h = .promoteHalf ns sc snap rest →
    (w.memory.namespaces.get ns).isSome ∧ w.store.Holds ns sc snap

theorem knows_nil (w : World) : w.Knows [] := ⟨by simp, by rintro _ _ _ _ ⟨⟩⟩

theorem Grows.fact {w w' : World} (hw : w.Grows w') {op : Op} {res : op.Res} (hfact : w.Fact op res) :
    w'.Fact op res := by
  unfold Fact at hfact ⊢
  split
  · exact hw.versions hfact
  · exact hw.versions hfact
  · exact hw.namespaces hfact
  · exact hw.namespaces hfact
  · exact hw.holds hfact
  · exact hw.holds hfact
  · trivial

theorem Grows.knows {w w' : World} (hw : w.Grows w') (hk : w.Knows h) : w'.Knows h where
  facts e he := hw.fact (hk.facts e he)
  half hm := ⟨hw.namespaces (hk.half hm).1, hw.holds (hk.half hm).2⟩

/-- Pointers and snapshots are of stored versions, and stored versions are well formed. -/
structure Sound (env : External) (w : World) : Prop where
  pointer : ∀ {ns sc v}, (w.store.pointers ns sc).currentVersion = some v ∨
    (w.store.pointers ns sc).stagedVersion = some v → (w.store.versions.get (ns, sc, v)).isSome
  slot : ∀ {ns sc snap}, w.memory.current ns sc = some snap ∨ w.memory.staged ns sc = some snap →
    w.store.Holds ns sc snap
  schema : ∀ {ns sc v row}, w.store.versions.get (ns, sc, v) = some row →
    (w.store.schemas.get (ns, sc)).isSome
  version : ∀ {ns sc v row}, w.store.versions.get (ns, sc, v) = some row → v ≠ 0 ∧ row.Built env

theorem sound_empty (env : External) : empty.Sound env :=
  ⟨by simp [empty, Store.empty, Store.pointers], by simp [empty, Namespaces.empty, Namespaces.current,
    Namespaces.staged, Namespaces.slot], by simp [empty, Store.empty], by simp [empty, Store.empty]⟩

section
variable {r : Registry} {c : Call} {w : World} {h : CallHistory} {op : Op}

theorem fact_perform {env : External} (hw : w.Sound env) (op : Op) :
    (perform op w).2.Fact op (perform op w).1 := by
  unfold Fact
  split
  · next ns sc v row u hput =>
    simp only [perform, Store.perform, Store.putVersion] at hput ⊢
    split at hput
    · cases hput
    · simp
  · next ns sc v row hget =>
    simp only [perform, Store.perform, Store.getVersion] at hget ⊢
    split at hget
    · cases hget
    · next hrow =>
      cases hget
      exact hrow
  · next hget => exact hget
  · next ns _ =>
    simp only [perform, Namespaces.perform, Namespaces.getOrCreate]
    split
    · simp
    · next hns => simp [hns]
  · next hcurrent => exact hw.slot (.inl hcurrent)
  · next hstaged => exact hw.slot (.inr hstaged)
  · trivial

/-- What a call is told is true, also beside other calls. -/
theorem knows_executes {env : External} (hw : w.Sound env) (hk : w.Knows h) (hG : CallGuard r c h op) {res : op.Res}
    (hstep : Executes op w res w') : w'.Knows (⟨op, res⟩ :: h) := by
  obtain heq | ⟨rfl, ns, visited, -, heq⟩ := hstep.cases
  · obtain ⟨rfl, rfl⟩ := Prod.mk.inj heq
    have hk' := (grows_perform op w).knows hk
    refine ⟨fun e he => ?_, fun {ns sc snap rest} hhalf => ?_⟩
    · obtain rfl | he := List.mem_cons.mp he
      · exact fact_perform hw op
      · exact hk'.facts e he
    · obtain hm | ⟨hm, ns', sc', heq⟩ := Mirror.of_next_eq_promoteHalf ((mirror_cons rfl).symm.trans hhalf)
      · exact hk'.half hm
      · obtain ⟨rfl, hres⟩ := Sigma.mk.inj heq
        obtain ⟨rest', hm'⟩ := hG
        cases hm'.symm.trans hm
        have hstaged : w.memory.staged ns sc = some snap := eq_of_heq hres
        exact ⟨(grows_perform _ w).namespaces (Namespaces.isSome_of_staged hstaged),
          (grows_perform _ w).holds (hw.slot (.inr hstaged))⟩
  · cases heq
    refine ⟨fun e he => ?_, fun hhalf => ?_⟩
    · obtain rfl | he := List.mem_cons.mp he
      · trivial
      · exact hk.facts e he
    · obtain hm | ⟨-, _, _, heq⟩ := Mirror.of_next_eq_promoteHalf ((mirror_cons rfl).symm.trans hhalf)
      · exact hk.half hm
      · cases heq

theorem knows_perform {env : External} (hw : w.Sound env) (hk : w.Knows h) (hG : CallGuard r c h op) :
    (perform op w).2.Knows (⟨op, (perform op w).1⟩ :: h) :=
  knows_executes hw hk hG (executes_perform op w)

theorem Knows.sourced (hk : w.Knows h) {snap : Snapshot} (hs : Sourced h ns sc snap) :
    w.store.Holds ns sc snap := by
  obtain ⟨row, hperm, hput | hget⟩ := hs
  · exact ⟨row, hk.facts _ hput, hperm⟩
  · exact ⟨row, hk.facts _ hget, hperm⟩

/-- A version that a call may stage is stored. -/
theorem Knows.stages (hk : w.Knows h) (hs : Stages c h ns sc v) :
    (w.store.versions.get (ns, sc, v)).isSome := by
  obtain ⟨-, -, row, hput⟩ | ⟨force, row, snap, -, hget, -⟩ := hs
  · exact Option.isSome_iff_exists.mpr ⟨row, hk.facts _ hput⟩
  · exact Option.isSome_iff_exists.mpr ⟨row, hk.facts _ hget⟩

theorem pointer_perform (hw : w.Sound r.env) (hk : w.Knows h) (hG : CallGuard r c h op)
    (hv : ((perform op w).2.store.pointers ns sc).currentVersion = some v ∨
      ((perform op w).2.store.pointers ns sc).stagedVersion = some v) :
    ((perform op w).2.store.versions.get (ns, sc, v)).isSome := by
  suffices h : (w.store.versions.get (ns, sc, v)).isSome by
    obtain ⟨row, hrow⟩ := Option.isSome_iff_exists.mp h
    exact Option.isSome_iff_exists.mpr ⟨row, (grows_perform op w).versions hrow⟩
  cases op with
  | mem op => exact hw.pointer hv
  | store op =>
    by_cases ht : Op.Touches ns sc (.store op)
    · cases op with
      | setStaged ns' sc' v' =>
        obtain ⟨rfl, rfl⟩ := ht
        have hstored := hk.stages hG.2
        obtain ⟨row, hrow⟩ := Option.isSome_iff_exists.mp hstored
        simp only [perform, Store.perform,
          Store.pointers_setStaged (hw.schema hrow) (hw.version hrow).1] at hv
        obtain hv | hv := hv
        · exact hw.pointer (.inl hv)
        · cases hv
          exact hstored
      | promote ns' =>
        cases ht
        simp only [perform, Store.perform, Store.pointers_promote, SchemaRow.currentVersion_promote,
          SchemaRow.stagedVersion_promote, reduceCtorEq, or_false, SchemaRow.proposed_eq_some] at hv
        obtain hv | ⟨-, hv⟩ := hv
        · exact hw.pointer (.inr hv)
        · exact hw.pointer (.inl hv)
      | discardStaging ns' =>
        cases ht
        simp only [perform, Store.perform, Store.pointers_discardStaging, reduceCtorEq, or_false] at hv
        exact hw.pointer (.inl hv)
      | _ => exact ht.elim
    · rw [show (perform (.store op) w).2.store.pointers ns sc = w.store.pointers ns sc from
        Store.pointers_perform ht] at hv
      exact hw.pointer hv

theorem slot_perform (hw : w.Sound r.env) (hk : w.Knows h) (hG : CallGuard r c h op)
    (hsnap : (perform op w).2.memory.current ns sc = some snap ∨
      (perform op w).2.memory.staged ns sc = some snap) :
    (perform op w).2.store.Holds ns sc snap := by
  refine (grows_perform op w).holds ?_
  cases op with
  | store op => exact hw.slot hsnap
  | mem op =>
    by_cases ht : Op.Touches ns sc (.mem op)
    · cases op with
      | setCurrent => exact hG.elim
      | setStaged ns' sc' snap' =>
        obtain ⟨rfl, rfl⟩ := ht
        simp only [perform, Namespaces.perform, Namespaces.current_setStaged,
          Namespaces.staged_setStaged (hk.facts _ hG.2.1)] at hsnap
        obtain hsnap | hsnap := hsnap
        · exact hw.slot (.inl hsnap)
        · cases hsnap
          exact hk.sourced hG.2.2
      | storeCurrent ns' sc' snap' =>
        obtain ⟨rfl, rfl⟩ := ht
        obtain ⟨rest, hm⟩ := hG
        obtain ⟨hns, hholds⟩ := hk.half hm
        simp only [perform, Namespaces.perform, Namespaces.staged_setCurrent,
          Namespaces.current_setCurrent hns] at hsnap
        obtain hsnap | hsnap := hsnap
        · cases hsnap
          exact hholds
        · exact hw.slot (.inr hsnap)
      | swapStaged ns' sc' | clearStaged ns' sc' =>
        obtain ⟨rfl, rfl⟩ := ht
        simp only [perform, Namespaces.perform, Namespaces.current_clearStaged,
          Namespaces.staged_clearStaged, reduceCtorEq, or_false] at hsnap
        exact hw.slot (.inl hsnap)
      | _ => exact ht.elim
    · have hslot : (perform (.mem op) w).2.memory.slot ns sc = w.memory.slot ns sc :=
        Namespaces.slot_perform ht
      simp only [Namespaces.current, Namespaces.staged, hslot] at hsnap
      exact hw.slot hsnap

theorem sound_perform (hw : w.Sound r.env) (hk : w.Knows h) (hG : CallGuard r c h op) :
    (perform op w).2.Sound r.env where
  pointer := pointer_perform hw hk hG
  slot := slot_perform hw hk hG
  schema {ns sc v row} hrow := by
    cases op with
    | mem op => exact hw.schema hrow
    | store op =>
      refine Store.isSome_schemas_perform_iff.mpr (.inl ?_)
      obtain hrow | ⟨-, hnone⟩ := Store.of_get_versions_perform hrow
      · exact hw.schema hrow
      · exact (Store.versionViolation_eq_none_iff.mp hnone).2.1
  version {ns sc v row} hrow := by
    cases op with
    | mem op => exact hw.version hrow
    | store op =>
      obtain hrow | ⟨rfl, -⟩ := Store.of_get_versions_perform hrow
      · exact hw.version hrow
      · obtain ⟨-, -, hallocated, hbuilt, -⟩ := hG
        exact ⟨hallocated.ne_zero, hbuilt⟩

end

end World

namespace Registry

variable {r : Registry} {w : World}

theorem sound_exec (hlaw : r.env.Lawful) (hw : w.Sound r.env) (c : Call) :
    (r.exec c w).2.Sound r.env := by
  obtain ⟨h, -, hw', -⟩ := Prog.Guarded.exec World.perform
    (J := fun w h => w.Sound r.env ∧ w.Knows h)
    (fun w h op hJ hG => ⟨World.sound_perform hJ.1 hJ.2 hG, World.knows_perform hJ.1 hJ.2 hG⟩)
    (run_spec c fun _ => hlaw) ⟨hw, w.knows_nil⟩
  exact hw'

theorem sound_runAll (hlaw : r.env.Lawful) (hw : w.Sound r.env) (calls : List Call) :
    (r.runAll calls w).Sound r.env := by
  induction calls generalizing w with
  | nil => exact hw
  | cons c calls ih => exact ih (sound_exec hlaw hw c)

end Registry

end ProtoRegistry
