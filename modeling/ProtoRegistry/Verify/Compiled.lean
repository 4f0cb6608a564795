import ProtoRegistry.Verify.Registering
import ProtoRegistry.Verify.TypesIndex

/-!
# Compiled schemas and the index of their names

A schema that compiles holds the files of its descriptor set and their types, and its fingerprint lists
them. The name index accepts the schemas of a namespace exactly when no visited name is in two of them.
-/

namespace ProtoRegistry

/-! ## One schema -/

/-- Whatever a file conflicts with, an accepted one is at its path. -/
theorem NamespacedFiles.Stores.register {r r' : NamespacedFiles} (h : r.Stores files)
    (hok : r.registerFile f = .ok r') : r'.Stores (files ++ [f]) := by
  rw [registerFile] at hok
  split at hok
  · cases hok
  · next hfree =>
    split at hok
    · cases hok
    · split at hok
      · cases hok
      · obtain ⟨fs, -, rfl⟩ := insertFileLocked_eq_ok_iff.mp hok
        have hpath : f.path ∉ files.map (·.path) := by
          rw [← h.paths.eq_none_iff]
          rw [get_filesByPath] at hfree
          cases hat : r.fileAt f.path with
          | none => rfl
          | some g => simp [hat] at hfree
        exact (h.of_sameFiles (sameFiles_enter r f fs)).setFile hpath

namespace Client

def AggFingerprint.ofFiles (files : List FileDescriptor) : AggFingerprint where
  filePaths := files.map (·.path)
  messages := namesOfKind .message (files.flatMap (·.types))
  enums := namesOfKind .enum (files.flatMap (·.types))
  extensions := namesOfKind .extension (files.flatMap (·.types))

theorem AggFingerprint.ofFiles_concat (files : List FileDescriptor) (f : FileDescriptor) :
    (ofFiles files).collect f = ofFiles (files ++ [f]) := by
  simp only [collect, ofFiles, namesOfKind, List.map_append, List.flatMap_append, List.filter_append,
    List.flatMap_singleton, List.map_singleton]

/-- The registries of a schema hold the files and their types, and its fingerprint lists them. -/
structure SchemaSnapshot.Compiled (ss : SchemaSnapshot) (files : List FileDescriptor) : Prop where
  stores : ss.files.Stores files
  types : ss.types.Holds (files.flatMap (·.types))
  distinct : Distinct (files.flatMap (·.types))
  fingerprint : ss.aggFingerprint = .ofFiles files

theorem compileFiles_spec {files : List FileDescriptor} {c : Compiling}
    (h : files.foldlM Compiling.addFile {} = .ok c) :
    c.files.Stores files ∧ c.types.Holds (files.flatMap (·.types)) ∧
      Distinct (files.flatMap (·.types)) ∧ c.fp = .ofFiles files := by
  let J (done : List FileDescriptor) (c : Compiling) : Prop :=
    c.files.Stores done ∧ c.types.Holds (done.flatMap (·.types)) ∧
      Distinct (done.flatMap (·.types)) ∧ c.fp = .ofFiles done
  refine foldlM_inv (J := J) ⟨.new, .new, ⟨List.nodup_nil, List.nodup_nil⟩, rfl⟩ ?_ h
  intro done f c c' _ ⟨hfiles, htypes, hdistinct, hfp⟩ hstep
  rw [Compiling.addFile] at hstep
  split at hstep
  · cases hstep
  · next files' hfile =>
    split at hstep
    · cases hstep
    · next types' htype =>
      cases hstep
      obtain ⟨hd, rfl⟩ := htypes.distinct_of_register hdistinct htype
      have hflat : (done ++ [f]).flatMap (·.types) = done.flatMap (·.types) ++ f.types := by
        rw [List.flatMap_append, List.flatMap_singleton]
      refine ⟨hfiles.register hfile, ?_, ?_, ?_⟩
      · rw [hflat]
        exact htypes.foldl_update hd
      · rwa [hflat]
      · rw [hfp, AggFingerprint.ofFiles_concat]

theorem compileSchema_eq_ok {env : External} (h : compileSchema env ns sc v fdset = .ok ss) :
    ∃ files, env.newFiles fdset = .ok files ∧ ss.Compiled files ∧ ss.schemaID = sc ∧ ss.version = v ∧
      ss.rawDescriptorSet = fdset := by
  rw [compileSchema] at h
  split at h
  · cases h
  · next files hfiles =>
    split at h
    · cases h
    · next c hc =>
      cases h
      obtain ⟨hstores, htypes, hdistinct, hfp⟩ := compileFiles_spec hc
      exact ⟨files, hfiles, ⟨hstores, htypes, hdistinct, hfp⟩, rfl, rfl, rfl⟩

end Client

theorem Registrable.distinct (h : Registrable files) : Distinct (files.flatMap (·.types)) where
  names := by
    have hsub : List.Sublist ((files.flatMap (·.types)).map (·.fullName)) (files.flatMap (·.declared)) := by
      rw [List.map_flatMap]
      apply List.Sublist.flatMap_right
      intro f _
      exact (List.sublist_append_left _ _).trans f.typeNames_sublist_declared
    exact h.declared.sublist hsub
  numbers := by
    have hkeys : ((files.flatMap (·.types)).filterMap (·.extension?)).map (·.extensionKey) =
        files.flatMap fun f => f.types.filterMap (·.extensionKey) := by
      rw [List.map_filterMap, List.filterMap_flatMap]
      simp only [TypeDescriptor.extensionKey_eq]
    rw [hkeys]
    exact h.extensions

/-- The files can be in one pair of registries, with their types. -/
structure Aggregable (files : List FileDescriptor) : Prop extends Coexist files where
  distinct : Distinct (files.flatMap (·.types))

namespace Aggregable

variable {files files' : List FileDescriptor}

theorem sublist (h : Aggregable files) (hsub : List.Sublist files' files) : Aggregable files' :=
  ⟨h.toCoexist.sublist hsub, h.distinct.sublist (hsub.flatMap _)⟩

theorem perm (h : Aggregable files) (hperm : files.Perm files') : Aggregable files' :=
  ⟨h.toCoexist.perm hperm, h.distinct.perm (hperm.flatMap_right _)⟩

theorem distinct_concat (h : Aggregable (files ++ [f])) : Distinct (files.flatMap (·.types) ++ f.types) := by
  have hd := h.distinct
  rwa [List.flatMap_append, List.flatMap_singleton] at hd

end Aggregable

theorem Registrable.aggregable (h : Registrable files) : Aggregable files := ⟨h.coexist, h.distinct⟩

namespace Client

theorem compileFiles_of_aggregable {files : List FileDescriptor} (hagg : Aggregable files) :
    ∃ c, files.foldlM Compiling.addFile {} = .ok c ∧ c.files.Holds files := by
  suffices H : ∀ (rest done : List FileDescriptor) (c : Compiling), Aggregable (done ++ rest) →
      c.files.Holds done → c.types.Holds (done.flatMap (·.types)) →
      ∃ c', rest.foldlM Compiling.addFile c = .ok c' ∧ c'.files.Holds (done ++ rest) from
    H files [] {} hagg .new .new
  intro rest
  induction rest with
  | nil =>
    intro done c _ hfiles _
    exact ⟨c, rfl, by rwa [List.append_nil]⟩
  | cons f rest ih =>
    intro done c hagg hfiles htypes
    rw [List.append_cons] at hagg
    have hone := hagg.sublist (List.sublist_append_left (done ++ [f]) rest)
    obtain ⟨r', hr', hfiles'⟩ := hfiles.register hone.toCoexist
    have hd := hone.distinct_concat
    have htype : registerFileTypes c.types f = .ok (registerFileTypesUpdate c.types f) := htypes.register hd
    have hstep : c.addFile f = .ok ⟨r', registerFileTypesUpdate c.types f, c.fp.collect f⟩ := by
      rw [Compiling.addFile, hr', htype]
    rw [List.foldlM_cons, hstep, List.append_cons]
    apply ih _ _ hagg hfiles'
    rw [List.flatMap_append, List.flatMap_singleton]
    exact htypes.foldl_update hd

theorem registerFiles_of_compileFiles {files : List FileDescriptor} {c : Compiling}
    (h : files.foldlM Compiling.addFile {} = .ok c) : NamespacedFiles.registerFiles files = .ok c.files := by
  refine foldlM_inv (J := fun done c => NamespacedFiles.registerFiles done = .ok c.files) rfl ?_ h
  intro done f c c' _ hdone hstep
  rw [Compiling.addFile] at hstep
  split at hstep
  · cases hstep
  · next r hr =>
    split at hstep
    · cases hstep
    · cases hstep
      exact NamespacedFiles.registerFiles_concat hdone hr

theorem compileFiles_ok_iff {files : List FileDescriptor} (hwell : ∀ f ∈ files, f.WellNamed) :
    (∃ c, files.foldlM Compiling.addFile {} = .ok c) ↔ Aggregable files := by
  constructor
  · intro ⟨c, hc⟩
    have hgathered := NamespacedFiles.gathered_registerFiles hwell (registerFiles_of_compileFiles hc)
    exact ⟨hgathered.coexist, (compileFiles_spec hc).2.2.1⟩
  · intro hagg
    obtain ⟨c, hc, -⟩ := compileFiles_of_aggregable hagg
    exact ⟨c, hc⟩

theorem compileSchema_of_registrable {env : External} (hfiles : env.newFiles fdset = .ok files)
    (hreg : Registrable files) : ∃ ss, compileSchema env ns sc v fdset = .ok ss := by
  obtain ⟨c, hc, _⟩ := compileFiles_of_aggregable hreg.aggregable
  rw [compileSchema, hfiles]
  simp only [hc]
  exact ⟨_, rfl⟩

/-! ## The name index -/

/-- No name is visited for two schemas. -/
def Consistent (visits : List (String × FullName)) : Prop :=
  ∀ i j n, (i, n) ∈ visits → (j, n) ∈ visits → i = j

theorem consistent_append_of_mem (hmem : (i, n) ∈ visits) : Consistent (visits ++ [(i, n)]) ↔ Consistent visits := by
  have hsame : ∀ e, e ∈ visits ++ [(i, n)] ↔ e ∈ visits := by
    intro e
    rw [List.mem_append, List.mem_singleton]
    exact ⟨fun he => he.elim id fun he => he ▸ hmem, .inl⟩
  simp only [Consistent, hsame]

theorem consistent_append_of_fresh (hfresh : ∀ j, (j, n) ∉ visits) :
    Consistent (visits ++ [(i, n)]) ↔ Consistent visits := by
  constructor
  · intro hcons a b m ha hb
    exact hcons a b m (List.mem_append_left _ ha) (List.mem_append_left _ hb)
  · intro hcons a b m ha hb
    rw [List.mem_append, List.mem_singleton] at ha hb
    obtain ha | ha := ha <;> obtain hb | hb := hb
    · exact hcons a b m ha hb
    · cases hb
      exact absurd ha (hfresh a)
    · cases ha
      exact absurd hb (hfresh b)
    · cases ha
      cases hb
      rfl

/-- What `buildNameIndex` knows after the visits so far. -/
structure NameIndexing.After (visits : List (String × FullName)) (st : NameIndexing) : Prop where
  sound : ∀ n i, st.nameIndex.get n = some i → (i, n) ∈ visits
  complete : ∀ i n, (i, n) ∈ visits → (st.nameIndex.get n).isSome
  conflicts : st.conflicts.keys = [] ↔ Consistent visits

theorem NameIndexing.After.visit {st : NameIndexing} (h : st.After visits) (v : String × FullName) :
    (st.visit v).After (visits ++ [v]) := by
  obtain ⟨i, n⟩ := v
  have hnew : (i, n) ∈ visits ++ [(i, n)] := List.mem_append_right _ (List.mem_singleton_self _)
  rw [NameIndexing.visit]
  split
  · next existing hexisting =>
    have hold := h.sound n existing hexisting
    split
    · next heq =>
      -- the name was visited for this schema before
      rw [heq] at hold
      refine ⟨fun m j hj => List.mem_append_left _ (h.sound m j hj), fun j m hj => ?_,
        h.conflicts.trans (consistent_append_of_mem hold).symm⟩
      obtain hj | hj := List.mem_append.mp hj
      · exact h.complete j m hj
      · cases List.mem_singleton.mp hj
        exact h.complete i n hold
    · next hne =>
      refine ⟨fun m j hj => List.mem_append_left _ (h.sound m j hj), fun j m hj => ?_, ?_⟩
      · obtain hj | hj := List.mem_append.mp hj
        · exact h.complete j m hj
        · cases List.mem_singleton.mp hj
          rw [hexisting]
          rfl
      · refine ⟨fun hnil => ?_, fun hcons => absurd (hcons _ _ _ (List.mem_append_left _ hold) hnew) hne⟩
        have hmem : n ∈ (st.conflicts.set n ((st.conflicts.get n).getD [existing] ++ [i])).keys :=
          Dict.mem_keys_of_get (Dict.get_set_self _ _ _)
        rw [hnil] at hmem
        cases hmem
  · next hnone =>
    have hfresh : ∀ j, (j, n) ∉ visits := by
      intro j hj
      have hsome := h.complete j n hj
      rw [hnone] at hsome
      cases hsome
    refine ⟨fun m j hj => ?_, fun j m hj => ?_, h.conflicts.trans (consistent_append_of_fresh hfresh).symm⟩
    · rw [Dict.get_set] at hj
      split at hj
      · next hm =>
        cases hj
        exact hm ▸ hnew
      · exact List.mem_append_left _ (h.sound m j hj)
    · obtain hj | hj := List.mem_append.mp hj
      · exact Dict.isSome_get_set _ _ (h.complete j m hj)
      · cases List.mem_singleton.mp hj
        rw [Dict.get_set_self]
        rfl

theorem NameIndexing.after_foldl (visits : List (String × FullName)) :
    (visits.foldl NameIndexing.visit ⟨.empty, .empty⟩).After visits := by
  induction visits using List.reverseRecOn with
  | nil =>
    refine ⟨fun n i h => (by cases h), fun i n h => (by cases h), ?_⟩
    exact ⟨fun _ i j n h => (by cases h), fun _ => rfl⟩
  | append_singleton visits v ih =>
    rw [List.foldl_append]
    exact ih.visit v

namespace NsSnapshot

theorem mem_sorted {s : NsSnapshot} : (sc, ss) ∈ s.sorted ↔ s.schemas.get sc = some ss := by
  rw [sorted, List.mem_insertionSort, Dict.mem_toList]

theorem mem_visits {s : NsSnapshot} :
    (sc, n) ∈ s.visits ↔ ∃ ss, s.schemas.get sc = some ss ∧
      ∃ f ∈ ss.files.rangeFiles, n ∈ rangeFileDescriptors f := by
  simp only [visits, List.mem_flatMap, List.mem_map, Prod.mk.injEq]
  constructor
  · rintro ⟨⟨i, ss⟩, hss, m, ⟨f, hf, hm⟩, rfl, rfl⟩
    exact ⟨ss, mem_sorted.mp hss, f, hf, hm⟩
  · rintro ⟨ss, hss, f, hf, hn⟩
    exact ⟨(sc, ss), mem_sorted.mpr hss, n, ⟨f, hf, hn⟩, rfl, rfl⟩

theorem buildNameIndex_eq_ok_iff {s s' : NsSnapshot} (hnew : s.nameIndex = .empty) :
    s.buildNameIndex = .ok s' ↔ Consistent s.visits ∧
      s' = { s with nameIndex := (s.visits.foldl NameIndexing.visit ⟨.empty, .empty⟩).nameIndex } := by
  have hafter := NameIndexing.after_foldl s.visits
  rw [buildNameIndex, hnew, ← hafter.conflicts, ← List.isEmpty_iff]
  split
  · next hempty => simp [hempty, eq_comm]
  · next hnot => simp [hnot]

theorem schemaFor_eq_some_iff {s s' : NsSnapshot} (hnew : s.nameIndex = .empty)
    (h : s.buildNameIndex = .ok s') :
    s'.schemaFor n = some ss ↔ ∃ sc, s.schemas.get sc = some ss ∧ (sc, n) ∈ s.visits := by
  have hafter := NameIndexing.after_foldl s.visits
  obtain ⟨hcons, rfl⟩ := (buildNameIndex_eq_ok_iff hnew).mp h
  rw [schemaFor, Option.bind_eq_some_iff]
  constructor
  · rintro ⟨sc, hsc, hss⟩
    exact ⟨sc, hss, hafter.sound n sc hsc⟩
  · rintro ⟨sc, hss, hvisit⟩
    obtain ⟨i, hi⟩ := Option.isSome_iff_exists.mp (hafter.complete sc n hvisit)
    exact ⟨i, hi, hcons i sc n (hafter.sound n i hi) hvisit ▸ hss⟩

end NsSnapshot

end Client

end ProtoRegistry
