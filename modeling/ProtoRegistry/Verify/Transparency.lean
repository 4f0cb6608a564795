import ProtoRegistry.Verify.Closure
import ProtoRegistry.Verify.Recovery

/-!
# Restart transparency

A stored version holds the compiled files with everything they import, so `protodesc.NewFiles` accepts it
again, and a restarted registry has the current snapshots of the registry that wrote the store.
-/

namespace ProtoRegistry
open RegistryM

/-! ## Sets that contain their imports -/

/-- The links of a compiled file are its imports, and so on upwards. -/
inductive LinkedFile.Linked : LinkedFile → Prop where
  | mk {fd : FileDescriptor} {imports : List LinkedFile} (himports : fd.imports = imports.map (·.file.path))
    (hlinked : ∀ f ∈ imports, f.Linked) : Linked ⟨fd, imports⟩

def ImportClosed (files : List FileDescriptor) : Prop := ∀ f ∈ files, ∀ p ∈ f.imports, p ∈ files.map (·.path)

/-- What holds while `addFile` visits the files at the paths `pending`: what was seen is being visited or was
added, and what is imported was seen. -/
structure AddState.Visiting (pending : List String) (st : AddState) : Prop where
  seen : ∀ p ∈ st.seen, p ∈ pending ∨ p ∈ st.files.map (·.path)
  imports : ∀ f ∈ st.files, ∀ p ∈ f.imports, p ∈ st.seen

mutual
theorem addFile_visiting : ∀ (f : LinkedFile) (pending : List String) (st : AddState), f.Linked →
    st.Visiting pending → (addFile f st).Visiting pending ∧ f.file.path ∈ (addFile f st).seen
  | ⟨fd, imports⟩, pending, st, .mk himports hlinked, hst => by
    rw [addFile]
    split
    · next hseen => exact ⟨hst, hseen⟩
    · have hopen : AddState.Visiting (fd.path :: pending) { st with seen := fd.path :: st.seen } := by
        refine ⟨AddState.seen_mark hst.seen fd.path, fun f hf p hp => ?_⟩
        exact List.mem_cons_of_mem _ (hst.imports f hf p hp)
      obtain ⟨hvisited, himported⟩ := addFiles_visiting imports _ _ hlinked hopen
      have hself := (addFiles_extends imports { st with seen := fd.path :: st.seen }).seen (List.mem_cons_self ..)
      refine ⟨⟨AddState.seen_add hvisited.seen, fun f hf p hp => ?_⟩, hself⟩
      rcases List.mem_append.mp hf with hf | hf
      · exact hvisited.imports f hf p hp
      · rw [List.mem_singleton.mp hf, himports] at hp
        obtain ⟨g, hg, rfl⟩ := List.mem_map.mp hp
        exact himported g hg
theorem addFiles_visiting : ∀ (fs : List LinkedFile) (pending : List String) (st : AddState),
    (∀ f ∈ fs, f.Linked) → st.Visiting pending →
    (addFiles fs st).Visiting pending ∧ ∀ f ∈ fs, f.file.path ∈ (addFiles fs st).seen
  | [], pending, st, _, hst => by
    rw [addFiles]
    exact ⟨hst, by simp⟩
  | f :: fs, pending, st, hlinked, hst => by
    rw [addFiles]
    obtain ⟨hf, hpath⟩ := addFile_visiting f pending st (hlinked f (List.mem_cons_self ..)) hst
    obtain ⟨hfs, hpaths⟩ := addFiles_visiting fs pending _ (fun g hg => hlinked g (List.mem_cons_of_mem _ hg)) hf
    refine ⟨hfs, fun g hg => ?_⟩
    rcases List.mem_cons.mp hg with rfl | hg
    · exact (addFiles_extends fs _).seen hpath
    · exact hpaths g hg
end

theorem importClosed_transitiveFiles {compiled : List LinkedFile} (h : ∀ f ∈ compiled, f.Linked) :
    ImportClosed (transitiveFiles compiled) := by
  obtain ⟨hvisited, -⟩ := addFiles_visiting compiled [] ⟨[], []⟩ h ⟨by simp, by simp⟩
  intro f hf p hp
  exact (hvisited.seen p (hvisited.imports f hf p hp)).resolve_left (by simp)

/-! ## The round trip -/

/-- What the external code does with a set that is stored and read again. -/
structure External.RoundTrips (env : External) : Prop where
  /-- `protocompile` links a file to the files it imports. -/
  linked : ∀ {resolver names compiled}, env.protocompile resolver names = .ok compiled → ∀ f ∈ compiled, f.Linked
  /-- `protodesc.NewFiles` accepts files that were registered before and contain their imports. -/
  newFiles_ok : ∀ {files}, ImportClosed files → env.registerFiles files = .ok () →
    ∃ files', env.newFiles files = .ok files'
  /-- The order of registration does not matter. -/
  registerFiles_perm : ∀ {files files'}, files.Perm files' → env.registerFiles files = .ok () →
    env.registerFiles files' = .ok ()

theorem External.RoundTrips.new_ok {env : External} (henv : env.RoundTrips) (hlaw : env.Lawful)
    (hcompiles : env.Compiles files) (hregistered : env.registerFiles files = .ok ()) (v : Nat) :
    ∃ snap, Snapshot.new env v files = .ok snap := by
  obtain ⟨resolver, names, linked, hlinked, rfl⟩ := hcompiles
  obtain ⟨files', hfiles'⟩ := henv.newFiles_ok (importClosed_transitiveFiles (henv.linked hlinked)) hregistered
  have hregistered' := henv.registerFiles_perm (hlaw.newFiles_perm hfiles').symm hregistered
  exact ⟨⟨v, files'⟩, by simp only [Snapshot.new, hfiles', hregistered']⟩

/-- Two snapshots of the same version, with the same files and the same registered types. -/
structure Snapshot.Same (snap snap' : Snapshot) : Prop where
  version : snap.version = snap'.version
  files : snap.fileList.Perm snap'.fileList
  types : (snap.fileList.flatMap (·.types)).Perm (snap'.fileList.flatMap (·.types))

/-- Two snapshots of one stored version are the same. -/
theorem Store.Holds.same {s : Store} {snap snap' : Snapshot} (h : s.Holds ns sc snap) (h' : s.Holds ns sc snap')
    (hversion : snap.version = snap'.version) : snap.Same snap' := by
  obtain ⟨row, hrow, hperm⟩ := h
  obtain ⟨row', hrow', hperm'⟩ := h'
  rw [← hversion] at hrow'
  cases hrow.symm.trans hrow'
  have hfiles := hperm.trans hperm'.symm
  exact ⟨hversion, hfiles, hfiles.flatMap_right _⟩

namespace Registry

variable {r r' : Registry}

theorem restart_sound {w : World} (hlaw : r.env.Lawful) (hround : r.env.RoundTrips) (hw : w.Sound r.env)
    (hparents : w.store.ParentsExist) : (r.restart w).1 = .ok () := by
  refine (restart_ok_iff hparents).mpr fun cs hcs => ?_
  obtain ⟨-, row, hrow, hcompiled, hversion⟩ := Store.loads_of_mem hcs
  have hbuilt := (hw.version hrow).2
  obtain ⟨snap, hsnap⟩ := hround.new_ok hlaw hbuilt.compiles hbuilt.registered cs.version
  refine ⟨snap, ?_⟩
  rw [rebuild, if_pos (hversion.trans hbuilt.compilerVersion), hcompiled, hsnap]
  rfl

/-- **Restart transparency**: after any calls, a new registry of the same build restores the store, and has
the current snapshots that the old one has. -/
theorem restart_transparent (henv : r'.env = r.env) (hlaw : r.env.Lawful) (hround : r.env.RoundTrips)
    (calls : List Call) :
    let w := r.runAll calls .empty
    (r'.restart w).1 = .ok () ∧ ∀ ns sc,
      Option.Rel Snapshot.Same (w.memory.current ns sc) ((r'.restart w).2.memory.current ns sc) := by
  intro w
  have hw := settled_runAll hlaw calls
  have hsound : w.Sound r'.env := henv ▸ hw.sound
  have hparents : w.store.ParentsExist :=
    r.store_runAll Store.parentsExist_empty (fun op _ hs => hs.perform op) calls
  have hok := restart_sound (henv ▸ hlaw) (henv ▸ hround) hsound hparents
  have hrestored := restored (henv ▸ hlaw) hsound hok
  refine ⟨hok, fun ns sc => ?_⟩
  have hold : (w.memory.current ns sc).map (·.version) = (w.store.pointers ns sc).currentVersion :=
    (congrArg SchemaRow.currentVersion (hw.mirrors ns sc)).symm
  have hnew : ((r'.restart w).2.memory.current ns sc).map (·.version) =
      (w.store.pointers ns sc).currentVersion := congrArg SchemaRow.currentVersion (hrestored.memory ns sc)
  rw [← hold] at hnew
  cases hcur : w.memory.current ns sc with
  | none =>
    rw [hcur] at hnew
    rw [Option.map_eq_none_iff.mp hnew]
    exact .none
  | some snap =>
    rw [hcur] at hnew
    obtain ⟨snap', hcur', hversion⟩ := Option.map_eq_some_iff.mp hnew
    rw [hcur']
    refine .some (Store.Holds.same (hsound.slot (.inl hcur)) ?_ hversion.symm)
    have hholds := hrestored.sound.slot (.inl hcur')
    rwa [Store.Holds, hrestored.versions] at hholds

end Registry

theorem Sample.roundTrips_env : Sample.env.RoundTrips where
  linked {resolver names compiled} h f hf := by
    obtain ⟨name, -, hname⟩ := (mem_of_mapM_eq_ok h).mp hf
    split at hname <;> cases hname
    exact .mk rfl (by simp)
  newFiles_ok _ _ := ⟨_, rfl⟩
  registerFiles_perm {files files'} hperm h := by
    have hreg := Sample.lawful_env.registrable_of_registerFiles h
    exact if_pos (hreg.perm hperm)

theorem restart_transparent_promoted :
    let w := Sample.registry.runAll [Sample.publish [1], .promote "n", Sample.publish [2]] .empty
    (w.memory.current "n" "s").isSome ∧ (w.memory.staged "n" "s").isSome ∧
    (Sample.registry.restart w).1 = .ok () ∧ ∀ ns sc,
      Option.Rel Snapshot.Same (w.memory.current ns sc) ((Sample.registry.restart w).2.memory.current ns sc) :=
  ⟨by decide +kernel, by decide +kernel,
    Registry.restart_transparent rfl Sample.lawful_env Sample.roundTrips_env _⟩

end ProtoRegistry
