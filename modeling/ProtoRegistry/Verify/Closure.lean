import ProtoRegistry.Model.Sample
import ProtoRegistry.Theory.Grounded
import ProtoRegistry.Theory.Ordering

/-!
# The stored descriptor set

`addFile` marks a file before it visits its imports, and adds it after them. In a graph without cycles a file
that is marked and not added yet is one that the search comes from, so no file meets it again: what is stored is
the import closure of the compiled files, in dependency order.
-/

namespace ProtoRegistry

open Relation

/-- The file at each path, with the paths it imports. -/
structure ImportGraph where
  file : String → FileDescriptor
  path : ∀ p, (file p).path = p

namespace ImportGraph

def imports (G : ImportGraph) (p : String) : List String := (G.file p).imports

/-- The file at the first path imports that at the second, directly or not, or is it. -/
def Reaches (G : ImportGraph) : String → String → Prop := ReflTransGen fun p q => q ∈ G.imports p

/-- The linked file is the part of the graph that its path reaches. -/
inductive Unfolds (G : ImportGraph) : LinkedFile → Prop where
  | mk (hlinks : links.map (·.file.path) = G.imports p) (himports : ∀ f ∈ links, G.Unfolds f) :
      G.Unfolds ⟨G.file p, links⟩

variable {G : ImportGraph} {f : LinkedFile} {p : String}

theorem Unfolds.file (h : G.Unfolds f) : f.file = G.file f.file.path := by
  cases h with
  | mk => rw [G.path]

theorem Unfolds.map_path (h : G.Unfolds ⟨fd, links⟩) : links.map (·.file.path) = G.imports fd.path := by
  cases h with
  | mk hlinks => rw [G.path, hlinks]

theorem Unfolds.mem_imports (h : G.Unfolds ⟨fd, links⟩) (hf : f ∈ links) : f.file.path ∈ G.imports fd.path :=
  h.map_path ▸ List.mem_map_of_mem hf

/-- A part of the graph that is unfolded has no cycle. -/
theorem Unfolds.grounded (h : G.Unfolds f) : Grounded (fun p q => q ∈ G.imports p) f.file.path := by
  induction h with
  | @mk links p hlinks _ ih =>
    refine grounded_iff.mpr fun q hq => ?_
    rw [G.path, ← hlinks] at hq
    obtain ⟨g, hg, rfl⟩ := List.mem_map.mp hq
    exact ih g hg

/-- And every part without a cycle can be unfolded. -/
theorem exists_unfolds (h : Grounded (fun p q => q ∈ G.imports p) p) : ∃ f, G.Unfolds f ∧ f.file = G.file p := by
  induction h with
  | intro p _ ih =>
    have hlinks : ∃ links : List LinkedFile, links.map (·.file.path) = G.imports p ∧ ∀ f ∈ links, G.Unfolds f := by
      have : Nonempty LinkedFile := ⟨⟨G.file p, []⟩⟩
      choose! link hlink using ih
      refine ⟨(G.imports p).map link, ?_, ?_⟩
      · rw [List.map_map]
        refine (List.map_congr_left fun q hq => ?_).trans (List.map_id _)
        rw [Function.comp_apply, (hlink q hq).2, G.path, id]
      · intro f hf
        obtain ⟨q, hq, rfl⟩ := List.mem_map.mp hf
        exact (hlink q hq).1
    obtain ⟨links, hpaths, hunfolds⟩ := hlinks
    exact ⟨_, .mk hpaths hunfolds, rfl⟩

end ImportGraph

/-! ## The search -/

/-- What holds while the files at the paths `pending` are being visited: what is marked and not pending was added,
and what was added is in order. -/
structure AddState.Following (G : ImportGraph) (pending : List String) (st : AddState) : Prop where
  files : ∀ f ∈ st.files, f = G.file f.path
  seen : ∀ p ∈ st.seen, p ∈ pending ∨ p ∈ st.files.map (·.path)
  order : InOrder G.imports (st.files.map (·.path))

/-- What a search from the paths `roots` adds to a state. -/
structure AddState.Follows (G : ImportGraph) (pending roots : List String) (st st' : AddState) : Prop
    extends st'.Following G pending where
  added : ∀ p ∈ roots, p ∈ st'.files.map (·.path)
  reached : ∀ f ∈ st'.files, f ∈ st.files ∨ ∃ p ∈ roots, G.Reaches p f.path

section
variable {G : ImportGraph} {pending roots : List String} {st : AddState} {fd : FileDescriptor}

theorem AddState.seen_mark (h : ∀ q ∈ st.seen, q ∈ pending ∨ q ∈ st.files.map (·.path)) (p : String) :
    ∀ q ∈ p :: st.seen, q ∈ p :: pending ∨ q ∈ st.files.map (·.path) := by
  intro q hq
  rcases List.mem_cons.mp hq with rfl | hq
  · exact .inl (List.mem_cons_self ..)
  · exact (h q hq).imp_left (List.mem_cons_of_mem _)

theorem AddState.seen_add (h : ∀ q ∈ st.seen, q ∈ fd.path :: pending ∨ q ∈ st.files.map (·.path)) :
    ∀ q ∈ st.seen, q ∈ pending ∨ q ∈ (st.files ++ [fd]).map (·.path) := by
  intro q hq
  rw [List.map_append, List.mem_append]
  rcases h q hq with hpending | hadded
  · rcases List.mem_cons.mp hpending with rfl | hpending
    · exact .inr (.inr (List.mem_singleton.mpr rfl))
    · exact .inl hpending
  · exact .inr (.inl hadded)

theorem AddState.Following.mark (h : st.Following G pending) (p : String) :
    AddState.Following G (p :: pending) { st with seen := p :: st.seen } where
  files := h.files
  seen := AddState.seen_mark h.seen p
  order := h.order

theorem AddState.Following.add (h : st.Following G (fd.path :: pending)) (hfd : fd = G.file fd.path)
    (himports : ∀ q ∈ G.imports fd.path, q ∈ st.files.map (·.path)) :
    AddState.Following G pending { st with files := st.files ++ [fd] } where
  files := by
    intro f hf
    rcases List.mem_append.mp hf with hf | hf
    · exact h.files f hf
    · rw [List.mem_singleton.mp hf]
      exact hfd
  seen := AddState.seen_add h.seen
  order := by
    rw [List.map_append]
    exact inOrder_concat.mpr ⟨h.order, himports⟩

mutual
theorem addFile_follows : ∀ (f : LinkedFile) (pending : List String) (st : AddState), G.Unfolds f →
    (∀ q ∈ pending, TransGen (fun p q => q ∈ G.imports p) q f.file.path) → st.Following G pending →
    st.Follows G pending [f.file.path] (addFile f st)
  | ⟨fd, links⟩, pending, st, hf, hpending, hst => by
    rw [addFile]
    split
    · next hseen =>
      -- a file that is still being visited would import itself
      have hadded := (hst.seen _ hseen).resolve_left fun hmem => hf.grounded.not_cycle (hpending _ hmem)
      exact ⟨hst, List.forall_mem_singleton.mpr hadded, fun f hf => .inl hf⟩
    · have hlinks := addFiles_follows links (fd.path :: pending) { st with seen := fd.path :: st.seen }
        (by cases hf with | mk _ himports => exact himports) ?_ (hst.mark fd.path)
      · have himports := hf.map_path ▸ hlinks.added
        refine ⟨hlinks.add hf.file himports, ?_, fun g hg => ?_⟩
        · refine List.forall_mem_singleton.mpr ?_
          simp
        · rcases List.mem_append.mp hg with hg | hg
          · refine (hlinks.reached g hg).imp_right fun ⟨p, hp, hreach⟩ => ⟨fd.path, List.mem_singleton_self _, ?_⟩
            obtain ⟨link, hlink, rfl⟩ := List.mem_map.mp hp
            exact .head (hf.mem_imports hlink) hreach
          · rw [List.mem_singleton.mp hg]
            exact .inr ⟨fd.path, List.mem_singleton_self _, .refl⟩
      · intro q hq f hlink
        have hstep := hf.mem_imports hlink
        rcases List.mem_cons.mp hq with rfl | hq
        · exact .single hstep
        · exact (hpending q hq).tail hstep
theorem addFiles_follows : ∀ (fs : List LinkedFile) (pending : List String) (st : AddState), (∀ f ∈ fs, G.Unfolds f) →
    (∀ q ∈ pending, ∀ f ∈ fs, TransGen (fun p q => q ∈ G.imports p) q f.file.path) → st.Following G pending →
    st.Follows G pending (fs.map (·.file.path)) (addFiles fs st)
  | [], pending, st, _, _, hst => by
    rw [addFiles]
    exact ⟨hst, by simp, fun f hf => .inl hf⟩
  | f :: fs, pending, st, hfs, hpending, hst => by
    rw [addFiles]
    have hf := addFile_follows f pending st (hfs f (List.mem_cons_self ..))
      (fun q hq => hpending q hq f (List.mem_cons_self ..)) hst
    have hrest := addFiles_follows fs pending (addFile f st) (fun g hg => hfs g (List.mem_cons_of_mem _ hg))
      (fun q hq g hg => hpending q hq g (List.mem_cons_of_mem _ hg)) hf.toFollowing
    refine ⟨hrest.toFollowing, ?_, fun g hg => ?_⟩
    · refine List.forall_mem_cons.mpr ⟨?_, hrest.added⟩
      obtain ⟨added, hfiles, -⟩ := (addFiles_extends fs (addFile f st)).files
      rw [hfiles, List.map_append]
      exact List.mem_append_left _ (hf.added _ (List.mem_singleton_self _))
    · rcases hrest.reached g hg with hg | ⟨p, hp, hreach⟩
      · rcases hf.reached g hg with hg | ⟨p, hp, hreach⟩
        · exact .inl hg
        · cases List.mem_singleton.mp hp
          exact .inr ⟨_, List.mem_cons_self .., hreach⟩
      · exact .inr ⟨p, List.mem_cons_of_mem _ hp, hreach⟩
end

end

/-- **A version stores the import closure of its files, in dependency order**: each file that they reach is there
once, after the files it imports. -/
theorem Compiler.compile_closure {c : Compiler} {env : External} {G : ImportGraph}
    (h : c.compile env v sources deps parentChain builtins = .ok res)
    (hlinked : env.protocompile (buildResolverChain env sources deps parentChain builtins) sources.keys = .ok linked)
    (hgraph : ∀ f ∈ linked, G.Unfolds f) :
    res.snapshot.fileList = res.compiled ∧
      (∀ fd, fd ∈ res.compiled ↔ ∃ f ∈ linked, ∃ p, G.Reaches f.file.path p ∧ fd = G.file p) ∧
      (res.compiled.map (·.path)).Nodup ∧ InOrder G.imports (res.compiled.map (·.path)) := by
  obtain ⟨fileResults, linked', snap, -, -, hlinked', hsnap, rfl⟩ := compile_eq_ok.mp h
  cases hlinked.symm.trans hlinked'
  obtain ⟨rfl, -⟩ := Snapshot.newFromFiles_eq_ok hsnap
  have hfollows := addFiles_follows linked [] ⟨[], []⟩ hgraph (by simp) ⟨by simp, by simp, inOrder_nil⟩
  refine ⟨rfl, fun fd => ?_, transitiveFiles_nodup linked, hfollows.order⟩
  constructor
  · intro hfd
    obtain hfd' | ⟨p, hp, hreach⟩ := hfollows.reached fd hfd
    · cases hfd'
    · obtain ⟨f, hf, rfl⟩ := List.mem_map.mp hp
      exact ⟨f, hf, fd.path, hreach, hfollows.files fd hfd⟩
  · rintro ⟨f, hf, p, hreach, rfl⟩
    have hroot := hfollows.added _ (List.mem_map_of_mem hf)
    obtain ⟨g, hg, hpath⟩ := List.mem_map.mp (hfollows.order.mem_of_reach hroot hreach)
    rw [hfollows.files g hg, hpath] at hg
    exact hg

def Sample.diamond : ImportGraph where
  file p :=
    if p = "d.proto" then { Sample.file p [4] with imports := ["b.proto", "c.proto"] }
    else if p = "b.proto" then { Sample.file p [2] with imports := ["a.proto"] }
    else if p = "c.proto" then { Sample.file p [3] with imports := ["a.proto"] }
    else Sample.file p []
  path p := by
    dsimp only
    split_ifs <;> rfl

def Sample.diamondLinked : LinkedFile :=
  let a : LinkedFile := ⟨Sample.diamond.file "a.proto", []⟩
  ⟨Sample.diamond.file "d.proto", [⟨Sample.diamond.file "b.proto", [a]⟩, ⟨Sample.diamond.file "c.proto", [a]⟩]⟩

theorem Sample.unfolds_diamondLinked : Sample.diamond.Unfolds Sample.diamondLinked := by
  have ha : Sample.diamond.Unfolds ⟨Sample.diamond.file "a.proto", []⟩ := .mk rfl (by simp)
  refine .mk rfl (List.forall_mem_cons.mpr ⟨.mk rfl ?_, List.forall_mem_singleton.mpr (.mk rfl ?_)⟩)
  · exact List.forall_mem_singleton.mpr ha
  · exact List.forall_mem_singleton.mpr ha

/-- The compiled file is the last of four. -/
theorem Compiler.compile_closure_diamond : ∃ res, Compiler.compile {} { Sample.env with
      protocompile _ _ := .ok [Sample.diamondLinked] } 1 (Dict.empty.set "d.proto" [4]) [] [] [] = .ok res ∧
    res.compiled.map (·.path) = ["a.proto", "b.proto", "c.proto", "d.proto"] ∧
    InOrder Sample.diamond.imports (res.compiled.map (·.path)) := by
  have h : ∃ res, Compiler.compile {} { Sample.env with protocompile _ _ := .ok [Sample.diamondLinked] } 1
      (Dict.empty.set "d.proto" [4]) [] [] [] = .ok res ∧
      res.compiled.map (·.path) = ["a.proto", "b.proto", "c.proto", "d.proto"] := ⟨_, rfl, rfl⟩
  obtain ⟨res, hres, hpaths⟩ := h
  have hgraph := List.forall_mem_singleton.mpr Sample.unfolds_diamondLinked
  exact ⟨res, hres, hpaths, (Compiler.compile_closure hres rfl hgraph).2.2.2⟩

end ProtoRegistry
