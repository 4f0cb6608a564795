import ProtoRegistry.Verify.Footprint
import ProtoRegistry.Verify.Sources
import ProtoRegistry.Verify.Transparency

/-!
# The own files of a version

A version is compiled from the files it is published with. Whatever else it stores is there because a file of the
version imports it.
-/

namespace ProtoRegistry
open RegistryM

/-- What `protocompile` returns: a file for each name it is given, linked to the files it imports. -/
structure External.Links (env : External) : Prop where
  paths : ∀ {resolver names compiled}, env.protocompile resolver names = .ok compiled →
    compiled.map (·.file.path) = names
  linked : ∀ {resolver names compiled}, env.protocompile resolver names = .ok compiled → ∀ f ∈ compiled, f.Linked

/-! ## What the search adds -/

mutual
theorem addFile_imported : ∀ (f : LinkedFile) (st : AddState), f.Linked → ∀ g ∈ (addFile f st).files,
    g ∈ st.files ∨ g.path = f.file.path ∨ ∃ importer ∈ (addFile f st).files, g.path ∈ importer.imports
  | ⟨fd, links⟩, st, .mk himports hlinked => by
    rw [addFile]
    split
    · exact fun g hg => .inl hg
    · intro g hg
      rcases List.mem_append.mp hg with hg | hg
      · obtain hold | hlink | ⟨importer, himporter, hpath⟩ :=
          addFiles_imported links { st with seen := fd.path :: st.seen } hlinked g hg
        · exact .inl hold
        · refine .inr (.inr ⟨fd, List.mem_append_right _ (List.mem_singleton_self _), ?_⟩)
          rw [himports]
          exact hlink
        · exact .inr (.inr ⟨importer, List.mem_append_left _ himporter, hpath⟩)
      · rw [List.mem_singleton.mp hg]
        exact .inr (.inl rfl)
theorem addFiles_imported : ∀ (fs : List LinkedFile) (st : AddState), (∀ f ∈ fs, f.Linked) →
    ∀ g ∈ (addFiles fs st).files, g ∈ st.files ∨ g.path ∈ fs.map (·.file.path) ∨
      ∃ importer ∈ (addFiles fs st).files, g.path ∈ importer.imports
  | [], st, _ => by
    rw [addFiles]
    exact fun g hg => .inl hg
  | f :: fs, st, hlinked => by
    rw [addFiles]
    intro g hg
    have hrest := addFiles_imported fs (addFile f st) (fun f hf => hlinked f (List.mem_cons_of_mem _ hf)) g hg
    obtain hg | hpath | himported := hrest
    · obtain hold | hpath | ⟨importer, himporter, hpath⟩ :=
        addFile_imported f st (hlinked f (List.mem_cons_self ..)) g hg
      · exact .inl hold
      · exact .inr (.inl (hpath ▸ List.mem_cons_self ..))
      · obtain ⟨added, hfiles, -⟩ := (addFiles_extends fs (addFile f st)).files
        exact .inr (.inr ⟨importer, hfiles ▸ List.mem_append_left _ himporter, hpath⟩)
    · exact .inr (.inl (List.mem_cons_of_mem _ hpath))
    · exact .inr (.inr himported)
end

/-- The stored files are those of the version and what they import. -/
structure VersionRow.Complete (row : VersionRow) : Prop where
  imported : ∀ f ∈ row.compiled, f.path ∈ row.files.map (·.filename) ∨
    ∃ importer ∈ row.compiled, f.path ∈ importer.imports
  closed : ImportClosed row.compiled

theorem Compiler.complete_of_compile {c : Compiler} {env : External} (hlinks : env.Links)
    (h : c.compile env v sources deps tiers builtins = .ok result) : VersionRow.Complete {
      compiled := result.compiled
      compilerVersion := env.compilerVersion
      files := result.files.map fun f => ⟨f.filename, f.blobSHA256⟩
      deps := result.deps } := by
  have hnames := (files_of_compile h).1
  obtain ⟨fileResults, linked, snap, -, -, hlinked, -, rfl⟩ := compile_eq_ok.mp h
  have hpaths : linked.map (·.file.path) = fileResults.map (·.filename) := (hlinks.paths hlinked).trans hnames.symm
  have hfiles := hlinks.linked hlinked
  refine ⟨fun f hf => ?_, importClosed_transitiveFiles hfiles⟩
  obtain hold | hroot | himported := addFiles_imported linked ⟨[], []⟩ hfiles f hf
  · cases hold
  · left
    rw [List.map_map]
    exact hpaths ▸ hroot
  · exact .inr himported

/-! ## Versions along a run -/

def Store.Complete (s : Store) : Prop := ∀ ns sc v row, s.versions.get (ns, sc, v) = some row → row.Complete

def Op.PutsComplete : Op → Prop
  | .store (.putVersion _ _ _ row) => row.Complete
  | _ => True

theorem World.complete_perform {op : Op} (hop : op.PutsComplete) (hw : w.store.Complete) :
    (World.perform op w).2.store.Complete := by
  cases op with
  | mem op => exact hw
  | store op =>
    intro ns sc v row hrow
    obtain hold | ⟨rfl, -⟩ := Store.of_get_versions_perform hrow
    · exact hw ns sc v row hold
    · exact hop

theorem World.complete_of_uses {x : RegistryM α} (hx : Uses Op.PutsComplete x) (hw : w.store.Complete) :
    (x.exec w).2.store.Complete :=
  inv_of_uses (J := fun w => w.store.Complete) hx (fun _ _ hop hw => World.complete_perform hop hw) hw rfl

namespace Registry

variable {r : Registry} {w : World}

theorem storeVersion_putsComplete (hrow : VersionRow.Complete {
      compiled := result.compiled
      compilerVersion := r.env.compilerVersion
      files := result.files.map fun f => ⟨f.filename, f.blobSHA256⟩
      deps := result.deps }) : Uses Op.PutsComplete (r.storeVersion req v result fingerprint) := by
  refine Uses.bind (Within.forM fun f _ => (uses_store trivial).wrap _) fun _ => ?_
  refine ((uses_store hrow).wrap _).bind fun _ _ => ((uses_store trivial).wrap _).bind fun _ _ => ?_
  exact (uses_mem trivial).bind fun _ => .pure _

theorem complete_exec (hlinks : r.env.Links) (hw : w.store.Complete) (c : Call) : (r.exec c w).2.store.Complete := by
  refine stored_exec (fun hop hs ns sc v row hrow => ?_) (fun _ hcompile hw => ?_) hw c
  · obtain hold | ⟨rfl, -⟩ := Store.of_get_versions_perform hrow
    · exact hs ns sc v row hold
    · exact hop.elim
  · exact World.complete_of_uses (storeVersion_putsComplete (Compiler.complete_of_compile hlinks hcompile)) hw

end Registry

/-- **Every version of a session is complete.** -/
theorem Session.complete_of_reached {r : Registry} (hlinks : r.env.Links) {s : Session} {ok : World → Call → Prop}
    (h : Reached r ok s) : s.world.store.Complete := by
  induction h with
  | start =>
    intro ns sc v row hrow
    cases hrow
  | call c _ _ ih => exact Registry.complete_exec hlinks ih c
  | restart _ _ ih => exact (r.store_restart _).symm ▸ ih

end ProtoRegistry
