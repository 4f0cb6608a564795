import ProtoRegistry.Verify.Pointers

/-!
# Restoring a registry

`Restore` rebuilds the current snapshots of all schemas from the store. Versions that the same build has
compiled are rebuilt from their descriptors; nothing is rebuilt for staged versions.
-/

namespace ProtoRegistry

open RegistryM

/-! ## What is loaded -/

/-- What is loaded: the version a row points to, with its files. -/
theorem Store.mem_loadSchemas {s : Store} {pointer : SchemaRow → Option Nat} {select : String → Bool} :
    cs ∈ s.loadSchemas pointer select ↔ select cs.namespaceID = true ∧
      ∃ schema row, s.schemas.get (cs.namespaceID, cs.schemaID) = some schema ∧ pointer schema = some cs.version ∧
        s.versions.get (cs.namespaceID, cs.schemaID, cs.version) = some row ∧ row.files ≠ [] ∧
        cs = ⟨cs.namespaceID, cs.schemaID, cs.version, row.compiled, row.compilerVersion,
          sortVersionFiles row.files⟩ := by
  simp only [loadSchemas, List.mem_insertionSort, List.mem_filterMap, List.mem_filter, Prod.exists]
  refine ⟨fun ⟨ns, sc, schema, ⟨hmem, hselect⟩, hload⟩ => ?_,
    fun ⟨hselect, schema, row, hschema, hv, hrow, hfiles, heq⟩ => ?_⟩
  · unfold loadSchema at hload
    split at hload
    · cases hload
    · next v hv =>
      split at hload
      · cases hload
      · next row hrow =>
        split at hload
        · cases hload
        · next hfiles =>
          cases hload
          exact ⟨hselect, schema, row, Dict.mem_toList.mp hmem, hv, hrow, by simpa using hfiles, rfl⟩
  · refine ⟨cs.namespaceID, cs.schemaID, schema, ⟨Dict.mem_toList.mpr hschema, hselect⟩, ?_⟩
    simp only [loadSchema, hv, hrow, List.isEmpty_iff, hfiles, if_false]
    exact congrArg some heq.symm

/-- The loaded schema is the version that its row points to. -/
structure Store.Loads (s : Store) (cs : CurrentSchema) : Prop where
  current : (s.pointers cs.namespaceID cs.schemaID).currentVersion = some cs.version
  row : ∃ row, s.versions.get (cs.namespaceID, cs.schemaID, cs.version) = some row ∧
    cs.compiled = row.compiled ∧ cs.compilerVersion = row.compilerVersion

theorem Store.loads_of_mem {s : Store} (hcs : cs ∈ s.loadAllCurrent) : s.Loads cs := by
  obtain ⟨-, schema, row, hschema, hv, hrow, -, heq⟩ := mem_loadSchemas.mp hcs
  exact ⟨by simpa [pointers, hschema] using hv, row, hrow, congrArg CurrentSchema.compiled heq,
    congrArg CurrentSchema.compilerVersion heq⟩

theorem Store.exists_mem_loadAllCurrent {s : Store}
    (hv : (s.pointers ns sc).currentVersion = some v)
    (hrow : s.versions.get (ns, sc, v) = some row) (hfiles : row.files ≠ []) :
    ∃ cs ∈ s.loadAllCurrent, cs.namespaceID = ns ∧ cs.schemaID = sc := by
  cases hschema : s.schemas.get (ns, sc) with
  | none => simp [pointers, hschema] at hv
  | some schema =>
    have hcur : schema.currentVersion = some v := by simpa [pointers, hschema] using hv
    refine ⟨⟨ns, sc, v, row.compiled, row.compilerVersion, sortVersionFiles row.files⟩, ?_, rfl, rfl⟩
    exact mem_loadSchemas.mpr ⟨rfl, schema, row, hschema, hcur, hrow, hfiles, rfl⟩

/-! ## The operations of `Restore` -/

/-- Under which circumstances `Restore` performs an operation. -/
def RestoreGuard (r : Registry) (h : CallHistory) : Op → Prop
  | .mem (.setCurrent ns sc snap) => ⟨.mem (.getOrCreate ns), ()⟩ ∈ h ∧
      ∃ schemas cs, ⟨.store .loadAllCurrent, .ok schemas⟩ ∈ h ∧ cs ∈ schemas ∧
        cs.namespaceID = ns ∧ cs.schemaID = sc ∧
        (cs.compilerVersion = r.env.compilerVersion →
          snap.version = cs.version ∧ snap.fileList.Perm cs.compiled)
  | op => WritesParents op

section
variable {r : Registry} {h : CallHistory}

theorem restoreGuard_of_writesParents {op : Op} (hop : WritesParents op) : RestoreGuard r h op := by
  unfold RestoreGuard
  split
  · exact hop.elim
  · exact hop

theorem spec_restore_quiet {x : RegistryM α} (hx : Uses WritesParents x) :
    Spec (RestoreGuard r) x h fun _ h' => h <:+ h' :=
  (Spec.ofUses (K := fun _ => True) hx (fun _ _ _ hop => restoreGuard_of_writesParents hop)
    (fun _ _ _ _ _ => trivial) trivial).mono fun _ _ hh => hh.1

theorem WritesParents.of_quiet {op : Op} (hop : Quiet op) : WritesParents op := by
  unfold WritesParents
  split
  · trivial
  · trivial
  · exact hop

theorem restoreParent_writesParents (n : String × NamespaceRow) :
    Uses WritesParents (Registry.restoreParent n) := by
  unfold Registry.restoreParent
  cases n.2.parentNamespaceID with
  | none => exact .pure _
  | some p =>
    refine (uses_mem trivial).bind fun found => ?_
    cases found with
    | false => exact .throw _
    | true => exact uses_mem trivial

theorem spec_buildSnapshot (hlaw : r.env.Lawful) (cs : CurrentSchema) :
    Spec (RestoreGuard r) (r.buildSnapshot cs r.env.compilerVersion) h fun res h' => h <:+ h' ∧
      ∀ snap, res = .ok snap → cs.compilerVersion = r.env.compilerVersion →
        snap.version = cs.version ∧ snap.fileList.Perm cs.compiled := by
  unfold Registry.buildSnapshot
  split
  · refine Meets.liftExcept ⟨List.suffix_refl h, fun snap hsnap _ => ?_⟩
    obtain ⟨hversion, hfiles⟩ := Snapshot.new_eq_ok (mapError_eq_ok.mp hsnap)
    exact ⟨hversion, hlaw.newFiles_perm hfiles⟩
  · next hne =>
    refine Meets.mono (spec_restore_quiet ?_) fun res h' hh => ⟨hh, fun _ _ heq => (hne heq).elim⟩
    refine Uses.mono (fun _ => WritesParents.of_quiet) ?_
    refine (fetchSources_quiet ..).bind fun sources => ((gatherDeps_quiet ..).wrap _).bind fun deps _ => ?_
    refine (uses_mem trivial).bind fun _ => ((gatherChainTiers_quiet ..).wrap _).bind fun tiers _ => ?_
    refine ((gatherBuiltinsFor_quiet ..).wrap _).bind fun builtins _ => ?_
    exact (Uses.liftExcept _).bind fun _ => .pure _

theorem spec_restoreSchema (hlaw : r.env.Lawful) {schemas : List CurrentSchema} {cs : CurrentSchema}
    (hschemas : ⟨.store .loadAllCurrent, .ok schemas⟩ ∈ h) (hcs : cs ∈ schemas) :
    Spec (RestoreGuard r) (r.restoreSchema r.env.compilerVersion cs) h fun res h' => h <:+ h' ∧
      ∀ u, res = .ok u →
        ∃ snap old, ⟨.mem (.setCurrent cs.namespaceID cs.schemaID snap), old⟩ ∈ h' := by
  unfold Registry.restoreSchema
  refine Meets.bind (Spec.wrap (Meets.mono (spec_buildSnapshot hlaw cs) ?_) (R := fun res h' => h <:+ h' ∧
    ∀ snap, res = .ok snap → cs.compilerVersion = r.env.compilerVersion →
      snap.version = cs.version ∧ snap.fileList.Perm cs.compiled))
    (fun _ _ hh => ⟨hh.1, by simp⟩) fun snap h₁ hh₁ => ?_
  · rintro res h' ⟨hh', hsnap⟩
    exact ⟨hh', fun snap heq => hsnap snap (mapError_eq_ok.mp heq)⟩
  · refine spec_mem_bind trivial fun u => spec_mem_bind ?_ fun old => Meets.pure ⟨?_, fun _ _ => ?_⟩
    · refine ⟨List.mem_cons_self .., schemas, cs, ?_, hcs, rfl, rfl, hh₁.2 snap rfl⟩
      exact List.mem_cons_of_mem _ (hh₁.1.subset hschemas)
    · exact hh₁.1.trans ((List.suffix_cons _ _).trans (List.suffix_cons _ _))
    · exact ⟨snap, old, List.mem_cons_self ..⟩

/-- A successful `Restore` sets the current snapshot of every schema it has loaded. -/
theorem spec_restore (hlaw : r.env.Lawful) :
    Spec (RestoreGuard r) r.restore [] fun res h => ∀ u, res = .ok u →
      ∃ schemas, ⟨.store .loadAllCurrent, .ok schemas⟩ ∈ h ∧ ∀ cs ∈ schemas,
        ∃ snap old, ⟨.mem (.setCurrent cs.namespaceID cs.schemaID snap), old⟩ ∈ h := by
  unfold Registry.restore
  refine spec_store_bind trivial (by simp) fun nsRows => ?_
  refine (spec_restore_quiet (Within.forM fun n _ => uses_mem trivial)).bind (by simp) fun _ h₁ hh₁ => ?_
  refine (spec_restore_quiet (Within.forM fun n _ => restoreParent_writesParents n)).bind (by simp)
    fun _ h₂ hh₂ => ?_
  refine spec_store_bind trivial (by simp) fun schemas => ?_
  refine Meets.mono (Meets.forM (l := schemas) (E := fun _ _ => True)
    (J := fun done rest h => ⟨.store .loadAllCurrent, .ok schemas⟩ ∈ h ∧ rest ⊆ schemas ∧
      ∀ cs ∈ done, ∃ snap old, ⟨.mem (.setCurrent cs.namespaceID cs.schemaID snap), old⟩ ∈ h)
    ?_ ⟨List.mem_cons_self .., List.Subset.refl _, by simp⟩) fun res h' hres u hu => ?_
  · rintro done cs rest h - ⟨hmem, hrest, hdone⟩
    refine (spec_restoreSchema hlaw hmem (hrest (List.mem_cons_self ..))).mono ?_
    rintro (e | u) h' ⟨hh', hset⟩
    · trivial
    · refine ⟨hh'.subset hmem, fun cs hcs => hrest (List.mem_cons_of_mem _ hcs), fun cs' hcs' => ?_⟩
      obtain hcs' | hcs' := List.mem_append.mp hcs'
      · obtain ⟨snap, old, hmem'⟩ := hdone cs' hcs'
        exact ⟨snap, old, hh'.subset hmem'⟩
      · rw [List.mem_singleton.mp hcs']
        exact hset u rfl
  · subst hu
    exact ⟨schemas, hres.1, hres.2.2⟩

end

/-! ## The restored world -/

/-- What holds while the namespaces are rebuilt from a store with the tables of `s₀`. -/
structure Restoring (r : Registry) (s₀ : Store) (w : World) (h : CallHistory) : Prop where
  sound : w.Sound r.env
  versions : w.store.versions = s₀.versions
  pointers : ∀ ns sc, w.store.pointers ns sc = s₀.pointers ns sc
  staged : ∀ ns sc, w.memory.staged ns sc = none
  current : ∀ {ns sc snap}, w.memory.current ns sc = some snap →
    (s₀.pointers ns sc).currentVersion = some snap.version
  found : ∀ {ns}, ⟨.mem (.getOrCreate ns), ()⟩ ∈ h → (w.memory.namespaces.get ns).isSome
  loaded : ∀ {schemas}, ⟨.store .loadAllCurrent, .ok schemas⟩ ∈ h → (∀ cs ∈ schemas, s₀.Loads cs) ∧
    ∀ {ns sc v}, (s₀.pointers ns sc).currentVersion = some v →
      ∃ cs ∈ schemas, cs.namespaceID = ns ∧ cs.schemaID = sc
  set : ∀ {ns sc snap old}, ⟨.mem (.setCurrent ns sc snap), old⟩ ∈ h →
    (w.memory.current ns sc).isSome

section
variable {r : Registry} {s₀ : Store} {w : World} {h : CallHistory}

theorem WritesParents.not_touches {op : Op} (hop : WritesParents op) : ¬ op.Touches ns sc := by
  unfold WritesParents at hop
  split at hop
  · exact id
  · exact id
  · intro ht
    unfold Op.Touches at ht
    split at ht <;> first | exact hop | exact ht

theorem WritesParents.versions_perform {op : Op} (hop : WritesParents op) :
    (World.perform op w).2.store.versions = w.store.versions := by
  cases op with
  | mem op => rfl
  | store op =>
    refine Store.versions_perform ?_
    rintro ns sc v row rfl
    exact hop

/-- What `loadAllCurrent` returns while the store has the tables of `s₀`. -/
theorem Restoring.loadAllCurrent (hw : Restoring r s₀ w h) :
    (∀ cs ∈ w.store.loadAllCurrent, s₀.Loads cs) ∧
      ∀ {ns sc v}, (s₀.pointers ns sc).currentVersion = some v →
        ∃ cs ∈ w.store.loadAllCurrent, cs.namespaceID = ns ∧ cs.schemaID = sc := by
  refine ⟨fun cs hcs => ?_, fun {ns sc v} hv => ?_⟩
  · obtain ⟨hcurrent, hrow⟩ := Store.loads_of_mem hcs
    rw [hw.pointers] at hcurrent
    rw [hw.versions] at hrow
    exact ⟨hcurrent, hrow⟩
  · rw [← hw.pointers] at hv
    obtain ⟨row, hrow⟩ := Option.isSome_iff_exists.mp (hw.sound.pointer (.inl hv))
    exact Store.exists_mem_loadAllCurrent hv hrow (hw.sound.version hrow).2.files

theorem Restoring.writesParents (hw : Restoring r s₀ w h) {op : Op} (hop : WritesParents op) :
    Restoring r s₀ (World.perform op w).2 (⟨op, (World.perform op w).1⟩ :: h) := by
  have hslot : ∀ ns sc, (World.perform op w).2.memory.slot ns sc = w.memory.slot ns sc :=
    fun ns sc => (World.pointers_perform hop.not_touches).2
  have hcurrent : ∀ ns sc, (World.perform op w).2.memory.current ns sc = w.memory.current ns sc :=
    fun ns sc => by rw [Namespaces.current, hslot, Namespaces.current]
  refine ⟨?_, hop.versions_perform.trans hw.versions, fun ns sc => ?_, fun ns sc => ?_, ?_, ?_, ?_, ?_⟩
  · refine World.sound_perform (c := .setNamespaceParent "" none "") hw.sound w.knows_nil ?_
    refine callGuard_of_writesParents ?_ rfl hop
    trivial
  · exact (World.pointers_perform hop.not_touches).1.trans (hw.pointers ns sc)
  · rw [Namespaces.staged, hslot]
    exact hw.staged ns sc
  · intro ns sc snap hsnap
    rw [hcurrent] at hsnap
    exact hw.current hsnap
  · intro ns hmem
    obtain heq | hmem := List.mem_cons.mp hmem
    · cases heq
      exact World.fact_perform hw.sound (.mem (.getOrCreate ns))
    · exact (World.grows_perform op w).namespaces (hw.found hmem)
  · intro schemas hmem
    obtain heq | hmem := List.mem_cons.mp hmem
    · cases heq
      exact hw.loadAllCurrent
    · exact hw.loaded hmem
  · intro ns sc snap old hmem
    rw [hcurrent]
    obtain heq | hmem := List.mem_cons.mp hmem
    · cases heq
      exact hop.elim
    · exact hw.set hmem

theorem Restoring.setCurrent (hw : Restoring r s₀ w h) {snap : Snapshot}
    (hG : RestoreGuard r h (.mem (.setCurrent ns sc snap))) :
    Restoring r s₀ (World.perform (.mem (.setCurrent ns sc snap)) w).2
      (⟨.mem (.setCurrent ns sc snap), w.memory.current ns sc⟩ :: h) := by
  obtain ⟨hfound, schemas, cs, hschemas, hcs, rfl, rfl, hsnap⟩ := hG
  have hns := hw.found hfound
  obtain ⟨hcurrent, row, hrow, hcompiled, hversion⟩ := (hw.loaded hschemas).1 cs hcs
  rw [← hw.versions] at hrow
  obtain ⟨hv, hperm⟩ := hsnap (hversion.trans (hw.sound.version hrow).2.compilerVersion)
  rw [← hv] at hcurrent hrow
  rw [hcompiled] at hperm
  -- the slot of the schema, and every other slot
  have hkey : ∀ ns sc, (cs.namespaceID = ns ∧ cs.schemaID = sc ∧
        (w.memory.setCurrent cs.namespaceID cs.schemaID snap).current ns sc = some snap) ∨
      (w.memory.setCurrent cs.namespaceID cs.schemaID snap).current ns sc = w.memory.current ns sc := by
    intro ns sc
    by_cases hkey : cs.namespaceID = ns ∧ cs.schemaID = sc
    · obtain ⟨rfl, rfl⟩ := hkey
      exact .inl ⟨rfl, rfl, Namespaces.current_setCurrent hns⟩
    · right
      rw [Namespaces.current, Namespaces.setCurrent, Namespaces.slot_modifySlot_of_ne hkey]
      rfl
  have hstaged : ∀ ns sc, (w.memory.setCurrent cs.namespaceID cs.schemaID snap).staged ns sc = none := by
    intro ns sc
    by_cases hkey : cs.namespaceID = ns ∧ cs.schemaID = sc
    · obtain ⟨rfl, rfl⟩ := hkey
      exact (Namespaces.staged_setCurrent _).trans (hw.staged ..)
    · rw [Namespaces.staged, Namespaces.setCurrent, Namespaces.slot_modifySlot_of_ne hkey]
      exact hw.staged ns sc
  refine ⟨⟨hw.sound.pointer, ?_, hw.sound.schema, hw.sound.version⟩, hw.versions, hw.pointers, hstaged,
    ?_, ?_, ?_, ?_⟩
  · rintro ns sc snap' (hsnap' | hsnap')
    · obtain ⟨rfl, rfl, heq⟩ | heq := hkey ns sc
      · cases heq.symm.trans hsnap'
        exact ⟨row, hrow, hperm⟩
      · exact hw.sound.slot (.inl (heq.symm.trans hsnap'))
    · cases (hstaged ns sc).symm.trans hsnap'
  · intro ns sc snap' hsnap'
    obtain ⟨rfl, rfl, heq⟩ | heq := hkey ns sc
    · cases heq.symm.trans hsnap'
      exact hcurrent
    · exact hw.current (heq.symm.trans hsnap')
  · intro ns hmem
    exact Namespaces.isSome_modify _ (hw.found (by simpa using hmem))
  · intro schemas hmem
    exact hw.loaded (by simpa using hmem)
  · intro ns sc snap' old hmem
    obtain ⟨rfl, rfl, heq⟩ | heq := hkey ns sc
    · exact Option.isSome_iff_exists.mpr ⟨snap, heq⟩
    · obtain hhead | hmem := List.mem_cons.mp hmem
      · cases hhead
        exact Option.isSome_iff_exists.mpr ⟨_, Namespaces.current_setCurrent hns⟩
      · exact (congrArg Option.isSome heq).trans (hw.set hmem)

theorem Restoring.step (hw : Restoring r s₀ w h) {op : Op} (hG : RestoreGuard r h op) :
    Restoring r s₀ (World.perform op w).2 (⟨op, (World.perform op w).1⟩ :: h) := by
  unfold RestoreGuard at hG
  split at hG
  · exact hw.setCurrent hG
  · exact hw.writesParents hG

/-- **A restart** leaves the tables alone. Afterwards memory has the current version of every schema, and
nothing staged. -/
structure World.Restored (r : Registry) (w w' : World) : Prop where
  sound : w'.Sound r.env
  versions : w'.store.versions = w.store.versions
  pointers : ∀ ns sc, w'.store.pointers ns sc = w.store.pointers ns sc
  memory : ∀ ns sc, w'.memory.pointers ns sc = ⟨(w.store.pointers ns sc).currentVersion, none⟩

theorem Registry.restored (hlaw : r.env.Lawful) (hw : w.Sound r.env)
    (hok : (r.restart w).1 = .ok ()) : w.Restored r (r.restart w).2 := by
  have hempty : ∀ ns sc, Namespaces.empty.slot ns sc = none := fun _ _ => rfl
  have hinit : Restoring r w.store { w with memory := .empty } [] := by
    refine ⟨⟨hw.pointer, ?_, hw.schema, hw.version⟩, rfl, fun _ _ => rfl, fun _ _ => rfl, ?_, ?_, ?_, ?_⟩
    all_goals simp [Namespaces.current, Namespaces.staged, hempty]
  obtain ⟨h, hset, hres⟩ := Prog.Guarded.exec World.perform (J := Restoring r w.store)
    (fun _ _ _ hres hG => hres.step hG) (spec_restore hlaw) hinit
  obtain ⟨schemas, hschemas, hset⟩ := hset () hok
  refine ⟨hres.sound, hres.versions, hres.pointers, fun ns sc => SchemaRow.ext ?_ ?_⟩
  · change ((r.restart w).2.memory.current ns sc).map (·.version) = _
    cases hcurrent : (r.restart w).2.memory.current ns sc with
    | some snap => exact (hres.current hcurrent).symm
    | none =>
      cases hv : (w.store.pointers ns sc).currentVersion with
      | none => rfl
      | some v =>
        obtain ⟨cs, hcs, rfl, rfl⟩ := (hres.loaded hschemas).2 hv
        obtain ⟨snap, old, hmem⟩ := hset cs hcs
        have hsome := hres.set hmem
        rw [show (Prog.exec World.perform r.restore.run { w with memory := .empty }).2 =
          (r.restart w).2 from rfl, hcurrent] at hsome
        cases hsome
  · exact congrArg (Option.map _) (hres.staged ns sc)

end

end ProtoRegistry
