import ProtoRegistry.Verify.Gathering

/-!
# What `Restore` rebuilds

`Restore` wires the namespaces and their parents, and then rebuilds the current version of each schema. It
succeeds exactly when all of them can be rebuilt, and leaves their snapshots, and no others, in memory.
-/

namespace ProtoRegistry
open RegistryM

/-! ## The parent column -/

namespace Store

variable {s : Store}

def ParentsExist (s : Store) : Prop := ∀ n p, s.parentOf n = some p → (s.namespaces.get p).isSome

theorem ParentsExist.createNamespace (hs : s.ParentsExist) (n : String) (q : Option String) :
    (s.createNamespace n q).2.ParentsExist := by
  unfold Store.createNamespace
  split
  · exact hs
  · split
    · exact hs
    · next hfk =>
      intro m p hmp
      obtain rfl | hne := eq_or_ne p n
      · simp
      · refine Dict.isSome_get_set _ _ ?_
        simp only [parentOf, Dict.get_set] at hmp
        split at hmp
        · -- the new row: its foreign key was checked
          by_contra hnone
          exact hfk ⟨p, hmp, hne, by simpa using hnone⟩
        · exact hs m p hmp

theorem ParentsExist.setNamespaceParent (hs : s.ParentsExist) (n : String) (q : Option String) (actor : String) :
    (s.setNamespaceParent n q actor).2.ParentsExist := by
  obtain ⟨row, hrow, hacc, heq⟩ | ⟨-, heq⟩ | ⟨p, -, -, -, -, heq⟩ := s.setNamespaceParent_cases n q actor
  · rw [heq]
    intro m p hmp
    change (s.writeParent n q).parentOf m = some p at hmp
    change ((s.writeParent n q).namespaces.get p).isSome
    rw [parentOf_writeParent (by simp [hrow]), Function.update_apply] at hmp
    rw [isSome_writeParent]
    split at hmp
    · exact (hacc p hmp).2.2.1
    · exact hs m p hmp
  · rwa [heq]
  · rwa [heq]

theorem ParentsExist.perform (hs : s.ParentsExist) (op : StoreOp) : (s.perform op).2.ParentsExist := by
  cases op with
  | createNamespace n q => exact hs.createNamespace n q
  | setNamespaceParent n q actor => exact hs.setNamespaceParent n q actor
  | _ =>
    intro n p hp
    rw [parentOf, namespaces_perform (by simp) (by simp)] at hp
    rw [namespaces_perform (by simp) (by simp)]
    exact hs n p hp

theorem parentsExist_empty : empty.ParentsExist := fun n p h => by simp [parentOf, empty] at h

end Store

theorem Registry.store_runAll {P : Store → Prop} {w : World} (hw : P w.store) (hstep : ∀ op s, P s → P (s.perform op).2)
    (r : Registry) (calls : List Call) : P (r.runAll calls w).store := by
  induction calls using List.reverseRecOn with
  | nil => exact hw
  | append_singleton calls c ih =>
    rw [runAll_append]
    refine Prog.exec_inv World.perform (J := fun w => P w.store) (fun op w hw => ?_) (r.run c).run ih
    cases op with
    | store op => exact hstep op w.store hw
    | mem op => exact hw

/-! ## The first pass -/

theorem Store.mem_listNamespaces {s : Store} {n : String × NamespaceRow} :
    n ∈ s.listNamespaces ↔ s.namespaces.get n.1 = some n.2 := by
  rw [listNamespaces, List.mem_insertionSort]
  exact Dict.mem_toList

/-- What holds in the first pass of `Restore`, when the parents of the rows `done` are wired. -/
structure Wiring (s : Store) (done : List (String × NamespaceRow)) (w : World) : Prop where
  store : w.store = s
  rows : ∀ n ∈ s.listNamespaces, (w.memory.namespaces.get n.1).isSome
  parent : ∀ id, w.memory.parent id = if id ∈ done.map (·.1) then s.parentOf id else none
  slot : ∀ ns sc, w.memory.slot ns sc = none

section
variable {s : Store}

theorem exec_createRows (s : Store) : ∃ w,
    (s.listNamespaces.forM fun n => mem (.getOrCreate n.1)).exec ⟨s, .empty⟩ = (.ok ⟨⟩, w) ∧ Wiring s [] w := by
  suffices H : ∃ w, (s.listNamespaces.forM fun n => mem (.getOrCreate n.1)).exec ⟨s, .empty⟩ = (.ok ⟨⟩, w) ∧
      w.store = s ∧ (∀ n ∈ s.listNamespaces, (w.memory.namespaces.get n.1).isSome) ∧
      w.memory.parent = (fun _ => none) ∧ ∀ ns sc, w.memory.slot ns sc = none by
    obtain ⟨w, hw, hstore, hrows, hparent, hslot⟩ := H
    exact ⟨w, hw, hstore, hrows, fun id => congrFun hparent id, hslot⟩
  refine execute_forM (J := fun (done : List (String × NamespaceRow)) (w : World) => w.store = s ∧
    (∀ n ∈ done, (w.memory.namespaces.get n.1).isSome) ∧
    w.memory.parent = (fun _ => none) ∧ ∀ ns sc, w.memory.slot ns sc = none) ?_ ?_
  · exact ⟨rfl, by simp, rfl, fun _ _ => rfl⟩
  · intro done n rest w hl ⟨hstore, hrows, hparent, hslot⟩
    refine ⟨_, exec_mem (.getOrCreate n.1) w, hstore, fun n' hn' => ?_, ?_, fun ns sc => ?_⟩
    · rcases List.mem_append.mp hn' with hn' | hn'
      · exact Namespaces.isSome_perform (.getOrCreate n.1) (hrows n' hn')
      · rw [List.mem_singleton.mp hn']
        exact Namespaces.isSome_getOrCreate n.1
    · exact (Namespaces.parent_getOrCreate n.1).trans hparent
    · exact Namespaces.slot_getOrCreate.trans (hslot ns sc)

theorem Wiring.restoreParent {done : List (String × NamespaceRow)} {n : String × NamespaceRow} {w : World}
    (hs : s.ParentsExist) (hn : n ∈ s.listNamespaces) (hw : Wiring s done w) :
    ∃ w', (Registry.restoreParent n).exec w = (.ok ⟨⟩, w') ∧ Wiring s (done ++ [n]) w' := by
  have hparent : s.parentOf n.1 = n.2.parentNamespaceID := by
    rw [Store.parentOf, Store.mem_listNamespaces.mp hn]
    rfl
  have hdone : ∀ id, id ∈ (done ++ [n]).map (·.1) ↔ id ∈ done.map (·.1) ∨ id = n.1 := by simp
  unfold Registry.restoreParent
  cases hp : n.2.parentNamespaceID with
  | none =>
    refine ⟨w, rfl, hw.store, hw.rows, fun id => ?_, hw.slot⟩
    rw [hw.parent, if_congr (hdone id) rfl rfl]
    obtain rfl | hne := eq_or_ne id n.1
    · simp [hparent, hp]
    · simp only [hne, or_false]
  | some p =>
    rw [hp] at hparent
    obtain ⟨row, hrow⟩ := Option.isSome_iff_exists.mp (hs n.1 p hparent)
    have hget := hw.rows (p, row) (Store.mem_listNamespaces.mpr hrow)
    refine ⟨⟨w.store, w.memory.setParent n.1 (some p)⟩, ?_, hw.store, fun n' hn' => ?_, fun id => ?_, fun ns sc => ?_⟩
    · refine (execute_bind_of_ok (exec_mem (.get p) w)).trans ?_
      simp only [Namespaces.perform, hget]
      rfl
    · exact Namespaces.isSome_modify n.1 (hw.rows n' hn')
    · rw [Namespaces.parent_setParent (hw.rows n hn), Function.update_apply, hw.parent, if_congr (hdone id) rfl rfl]
      obtain rfl | hne := eq_or_ne id n.1
      · simp [hparent]
      · simp only [hne, if_false, or_false]
    · exact (Namespaces.slot_setParent _).trans (hw.slot ns sc)

/-- Namespaces and parents are wired, and nothing is rebuilt yet. -/
structure Wired (s : Store) (w : World) : Prop where
  store : w.store = s
  parent : w.memory.parent = s.parentOf
  slot : ∀ ns sc, w.memory.slot ns sc = none

theorem Wiring.wired {w : World} (hw : Wiring s s.listNamespaces w) : Wired s w := by
  refine ⟨hw.store, funext fun id => ?_, hw.slot⟩
  rw [hw.parent]
  split
  · rfl
  · next hnot =>
    cases hrow : s.namespaces.get id with
    | none => simp [Store.parentOf, hrow]
    | some row => exact (hnot (List.mem_map.mpr ⟨(id, row), Store.mem_listNamespaces.mpr hrow, rfl⟩)).elim

theorem Registry.exec_restore_wiring (r : Registry) (hs : s.ParentsExist) :
    ∃ w, Wiring s s.listNamespaces w ∧ r.restore.exec ⟨s, .empty⟩ =
      (s.loadAllCurrent.forM (r.restoreSchema r.env.compilerVersion)).exec w := by
  obtain ⟨w₁, hw₁, hi₁⟩ := exec_createRows s
  have hwire : ∃ w, (s.listNamespaces.forM restoreParent).exec w₁ = (.ok ⟨⟩, w) ∧ Wiring s s.listNamespaces w :=
    execute_forM hi₁ fun done n rest w hl hw =>
      hw.restoreParent hs (hl ▸ List.mem_append_right _ (List.mem_cons_self ..))
  obtain ⟨w₂, hw₂, hi₂⟩ := hwire
  refine ⟨w₂, hi₂, ?_⟩
  have hlist : ((RegistryM.store .listNamespaces).wrap "listing namespaces").exec ⟨s, .empty⟩ =
      (.ok s.listNamespaces, ⟨s, .empty⟩) := (exec_wrap_of rfl _).trans rfl
  have hload : ((RegistryM.store .loadAllCurrent).wrap "loading current schemas").exec w₂ =
      (.ok s.loadAllCurrent, w₂) := by
    rw [← hi₂.store]
    exact (exec_wrap_of rfl _).trans rfl
  refine (execute_bind_of_ok hlist).trans ((execute_bind_of_ok hw₁).trans ?_)
  exact (execute_bind_of_ok hw₂).trans (execute_bind_of_ok hload)

theorem Registry.exec_restore (r : Registry) (hs : s.ParentsExist) :
    ∃ w, Wired s w ∧ r.restore.exec ⟨s, .empty⟩ =
      (s.loadAllCurrent.forM (r.restoreSchema r.env.compilerVersion)).exec w := by
  obtain ⟨w, hw, hexec⟩ := r.exec_restore_wiring hs
  exact ⟨w, hw.wired, hexec⟩

end

/-! ## The second pass -/

def CurrentSchema.key (cs : CurrentSchema) : String × String := (cs.namespaceID, cs.schemaID)

theorem Store.key_of_loadSchema {s : Store} {pointer : SchemaRow → Option Nat}
    (h : s.loadSchema pointer k row = some cs) : cs.key = k := by
  unfold loadSchema at h
  split at h
  · cases h
  · split at h
    · cases h
    · split at h
      · cases h
      · cases h
        rfl

theorem Store.loadSchemas_nodup (s : Store) (pointer : SchemaRow → Option Nat) (select : String → Bool) :
    ((s.loadSchemas pointer select).map (·.key)).Nodup := by
  rw [loadSchemas, ((List.perm_insertionSort _ _).map _).nodup_iff]
  have hsub : ∀ l : List ((String × String) × SchemaRow),
      List.Sublist ((l.filterMap fun e => s.loadSchema pointer e.1 e.2).map (·.key)) (l.map (·.1)) := by
    intro l
    induction l with
    | nil => exact .slnil
    | cons e l ih =>
      rw [List.filterMap_cons]
      split
      · exact ih.cons _
      · next cs hload =>
        rw [List.map_cons, List.map_cons, key_of_loadSchema hload]
        exact ih.cons_cons _
  have hkeys : (s.schemas.toList.map (·.1)).Nodup := by
    rw [Dict.keys_toList]
    exact s.schemas.nodup
  exact (hkeys.sublist (List.filter_sublist.map _)).sublist (hsub _)

/-- What holds in the second pass of `Restore`, when the schemas `done` are rebuilt. -/
structure Rebuilt (r : Registry) (s : Store) (done : List CurrentSchema) (w : World) : Prop where
  store : w.store = s
  parent : w.memory.parent = s.parentOf
  current : ∀ cs ∈ done, ∃ snap, r.rebuild s s.parentOf cs = .ok snap ∧
    w.memory.current cs.namespaceID cs.schemaID = some snap
  absent : ∀ ns sc, (ns, sc) ∉ done.map (·.key) → w.memory.current ns sc = none

section
variable {r : Registry} {s : Store} {w : World} {done : List CurrentSchema} {cs : CurrentSchema}

theorem exec_restoreSchema_error (hstore : w.store = s) (hparent : w.memory.parent = s.parentOf)
    (h : r.rebuild s s.parentOf cs = .error e) :
    ∃ e' w', (r.restoreSchema r.env.compilerVersion cs).exec w = (.error e', w') := by
  obtain ⟨m, hbuild, -⟩ := r.exec_buildSnapshot cs w
  rw [hstore, hparent, h] at hbuild
  exact ⟨_, _, execute_bind_of_error (exec_wrap_of hbuild _)⟩

theorem exec_restoreSchema_ok (hstore : w.store = s) (hparent : w.memory.parent = s.parentOf)
    (h : r.rebuild s s.parentOf cs = .ok snap) :
    ∃ m : Namespaces, (r.restoreSchema r.env.compilerVersion cs).exec w =
        (.ok (), ⟨s, m.setCurrent cs.namespaceID cs.schemaID snap⟩) ∧
      m.parent = s.parentOf ∧ (m.namespaces.get cs.namespaceID).isSome ∧
      ∀ ns sc, m.slot ns sc = w.memory.slot ns sc := by
  obtain ⟨m, hbuild, hm⟩ := r.exec_buildSnapshot cs w
  rw [hstore, hparent, h] at hbuild
  refine ⟨m.getOrCreate cs.namespaceID, ?_, ?_, Namespaces.isSome_getOrCreate _, fun ns sc => ?_⟩
  · exact (execute_bind_of_ok (exec_wrap_of hbuild _)).trans rfl
  · rw [Namespaces.parent_getOrCreate, ← hparent]
    rcases hm with rfl | rfl
    · rfl
    · exact Namespaces.parent_getOrCreate _
  · rw [Namespaces.slot_getOrCreate]
    rcases hm with rfl | rfl
    · rfl
    · exact Namespaces.slot_getOrCreate

theorem Rebuilt.step (hw : Rebuilt r s done w) (hnew : cs.key ∉ done.map (·.key))
    (h : r.rebuild s s.parentOf cs = .ok snap) :
    ∃ w', (r.restoreSchema r.env.compilerVersion cs).exec w = (.ok (), w') ∧ Rebuilt r s (done ++ [cs]) w' := by
  obtain ⟨m, hexec, hparent, hns, hslot⟩ := exec_restoreSchema_ok hw.store hw.parent h
  have hother : ∀ ns sc, (ns, sc) ≠ cs.key →
      (m.setCurrent cs.namespaceID cs.schemaID snap).current ns sc = w.memory.current ns sc := by
    intro ns sc hne
    have hkey : ¬ (cs.namespaceID = ns ∧ cs.schemaID = sc) :=
      fun ⟨hns, hsc⟩ => hne (by rw [CurrentSchema.key, hns, hsc])
    rw [Namespaces.current, Namespaces.setCurrent, Namespaces.slot_modifySlot_of_ne hkey, hslot]
    rfl
  refine ⟨_, hexec, rfl, (Namespaces.parent_modifySlot ..).trans hparent, fun cs' hcs' => ?_, fun ns sc hnot => ?_⟩
  · rcases List.mem_append.mp hcs' with hcs' | hcs'
    · have hne : cs'.key ≠ cs.key := fun heq => hnew (heq ▸ List.mem_map_of_mem hcs')
      obtain ⟨snap', hsnap', hcurrent⟩ := hw.current cs' hcs'
      exact ⟨snap', hsnap', (hother _ _ hne).trans hcurrent⟩
    · rw [List.mem_singleton.mp hcs']
      exact ⟨snap, h, Namespaces.current_setCurrent hns⟩
  · rw [List.map_append, List.mem_append, not_or] at hnot
    exact (hother ns sc (by simpa using hnot.2)).trans (hw.absent ns sc hnot.1)

theorem Wired.rebuilt (hw : Wired s w) : Rebuilt r s [] w where
  store := hw.store
  parent := hw.parent
  current _ hcs := by cases hcs
  absent ns sc _ := by rw [Namespaces.current, hw.slot]; rfl

end

section
variable {r : Registry} {w : World}

/-- A restart only reads from the store. -/
theorem Registry.store_restart (r : Registry) (w : World) : (r.restart w).2.store = w.store := by
  let J (w' : World) : Prop := w'.store = w.store
  have hread : ∀ {w' : World} (op : StoreOp) context, (∀ s : Store, (s.perform op).2 = s) → J w' →
      J (((RegistryM.store op).wrap context).exec w').2 := by
    intro w' op context hop hw'
    rw [exec_wrap_of (exec_store op w')]
    exact (hop w'.store).trans hw'
  refine execute_bind_inv (J := J) (hread .listNamespaces _ (fun _ => rfl) rfl) fun rows w₁ _ h₁ => ?_
  refine execute_bind_inv (J := J) (execute_forM_inv (J := J) h₁ fun _ _ h => h) fun _ w₂ _ h₂ => ?_
  refine execute_bind_inv (J := J) (execute_forM_inv (J := J) h₂ fun n w' hw' => ?_) fun _ w₃ _ h₃ => ?_
  · unfold restoreParent
    cases n.2.parentNamespaceID with
    | none => exact hw'
    | some p =>
      refine execute_bind_inv (J := J) hw' fun found w'' _ hw'' => ?_
      cases found <;> exact hw''
  refine execute_bind_inv (J := J) (hread .loadAllCurrent _ (fun _ => rfl) h₃) fun schemas w₄ _ h₄ => ?_
  refine execute_forM_inv (J := J) h₄ fun cs w' hw' => ?_
  obtain ⟨m, hbuild, -⟩ := r.exec_buildSnapshot cs w'
  refine execute_bind_inv (J := J) ?_ fun snap w'' _ hw'' => hw''
  exact (congrArg Prod.snd (exec_wrap_of hbuild _)).symm ▸ hw'

/-- **Restart, when it succeeds**: each current version is rebuilt, and nothing else is in memory. -/
theorem Registry.restart_ok (hs : w.store.ParentsExist)
    (h : ∀ cs ∈ w.store.loadAllCurrent, ∃ snap, r.rebuild w.store w.store.parentOf cs = .ok snap) :
    (r.restart w).1 = .ok () ∧ Rebuilt r w.store w.store.loadAllCurrent (r.restart w).2 := by
  obtain ⟨w₁, hw₁, hexec⟩ := r.exec_restore hs
  have hnd : (w.store.loadAllCurrent.map (·.key)).Nodup := w.store.loadSchemas_nodup ..
  have hloop : ∃ w₂, (w.store.loadAllCurrent.forM (r.restoreSchema r.env.compilerVersion)).exec w₁ = (.ok ⟨⟩, w₂) ∧
      Rebuilt r w.store w.store.loadAllCurrent w₂ := by
    refine execute_forM hw₁.rebuilt fun done cs rest w' hl hw' => ?_
    obtain ⟨snap, hsnap⟩ := h cs (hl ▸ List.mem_append_right _ (List.mem_cons_self ..))
    refine hw'.step (fun hmem => ?_) hsnap
    rw [hl, List.map_append, List.map_cons] at hnd
    exact (List.nodup_append.mp hnd).2.2 _ hmem _ (List.mem_cons_self ..) rfl
  obtain ⟨w₂, hw₂, hrebuilt⟩ := hloop
  have hrestart : r.restart w = (.ok (), w₂) := hexec.trans hw₂
  rw [hrestart]
  exact ⟨rfl, hrebuilt⟩

/-- **Restart, when it fails**: a current version cannot be rebuilt. -/
theorem Registry.restart_ok_iff (hs : w.store.ParentsExist) : (r.restart w).1 = .ok () ↔
    ∀ cs ∈ w.store.loadAllCurrent, ∃ snap, r.rebuild w.store w.store.parentOf cs = .ok snap := by
  refine ⟨fun hok => ?_, fun h => (restart_ok hs h).1⟩
  obtain ⟨w₁, hw₁, hexec⟩ := r.exec_restore hs
  by_contra hfail
  push Not at hfail
  have hloop : ∃ e w₂, (w.store.loadAllCurrent.forM (r.restoreSchema r.env.compilerVersion)).exec w₁ =
      (.error e, w₂) := by
    refine execute_forM_error (J := fun w' : World => w'.store = w.store ∧ w'.memory.parent = w.store.parentOf)
      (P := fun cs => ∃ snap, r.rebuild w.store w.store.parentOf cs = .ok snap) ⟨hw₁.store, hw₁.parent⟩ ?_ ?_
      (by simpa using hfail)
    · intro cs w' ⟨snap, hsnap⟩ ⟨hstore, hparent⟩
      obtain ⟨m, hm, hparent', -⟩ := exec_restoreSchema_ok hstore hparent hsnap
      exact ⟨_, hm, rfl, (Namespaces.parent_modifySlot ..).trans hparent'⟩
    · intro cs w' hnot ⟨hstore, hparent⟩
      cases hrebuild : r.rebuild w.store w.store.parentOf cs with
      | error e => exact exec_restoreSchema_error hstore hparent hrebuild
      | ok snap => exact (hnot ⟨snap, hrebuild⟩).elim
  obtain ⟨e, w₂, herror⟩ := hloop
  rw [show r.restart w = (.error e, w₂) from hexec.trans herror] at hok
  cases hok

end

end ProtoRegistry
