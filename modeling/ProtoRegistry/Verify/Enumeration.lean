import ProtoRegistry.Model.Sample

/-!
# Enumerating the files of a chain

`RangeFilesAll` passes over the paths it has seen, and `FindFileByPath` stops at the first registry that has
the path. Both see the entries of the registries one after another, of which the first at a path counts.
-/

namespace ProtoRegistry

/-- The global registry holds one file for each path. -/
structure GlobalFiles.OneFilePerPath (files : GlobalFiles) : Prop where
  nodup : (files.rangeFiles.map (·.path)).Nodup
  find : ∀ path fd, files.findFileByPath path = .ok fd ↔ fd ∈ files.rangeFiles ∧ fd.path = path

namespace FilesChain

/-- A map is iterated in any order. -/
def IterationOrder (order : Nat → List (String × List FileDescriptor) → List (String × List FileDescriptor)) : Prop :=
  ∀ i l, (order i l).Perm l

/-- If the chain ends in the global registry, that holds one file for each path. -/
def OneFilePerPath : FilesChain → Prop
  | .nil => True
  | .global files => files.OneFilePerPath
  | .node _ parent => parent.OneFilePerPath

/-- What the registries hold under their paths, one registry after another. -/
def entries (order : Nat → List (String × List FileDescriptor) → List (String × List FileDescriptor)) :
    Nat → FilesChain → List (String × List FileDescriptor)
  | _, .nil => []
  | _, .global files => files.rangeFiles.map fun fd => (fd.path, [fd])
  | i, .node files parent => order i files.filesByPath.toList ++ entries order (i + 1) parent

variable {order : Nat → List (String × List FileDescriptor) → List (String × List FileDescriptor)}

theorem visitFile_eq (f : FileDescriptor → σ → Bool × σ) (fd : FileDescriptor) (st : List String × σ) :
    visitFile f fd st = visitEntry f (fd.path, [fd]) st := by
  rw [visitFile, visitEntry, rangeWhile_singleton]

theorem rangeFrom_eq (f : FileDescriptor → σ → Bool × σ) (i : Nat) (c : FilesChain) (st : List String × σ) :
    rangeFrom order f i c st = rangeWhile (visitEntry f) (entries order i c) st := by
  induction c generalizing i st with
  | nil => rfl
  | global files => exact rangeWhile_map (visitFile_eq f) _ st
  | node files parent ih =>
    rw [rangeFrom, entries, rangeWhile_append]
    rcases rangeWhile (visitEntry f) (order i files.filesByPath.toList) st with ⟨_ | _, st'⟩
    · rfl
    · exact ih (i + 1) st'

theorem rangeFilesAll_eq (f : FileDescriptor → σ → Bool × σ) (c : FilesChain) (s : σ) :
    rangeFilesAll order f c s = (rangeWhile f (firsts [] (entries order 0 c)) s).2 := by
  rw [rangeFilesAll, rangeFrom_eq]
  exact (rangeWhile_visitEntry _ _ _).2

section
variable (horder : IterationOrder order)
include horder

theorem singletons_entries (i : Nat) (c : FilesChain) : Singletons (·.path) (entries order i c) := by
  induction c generalizing i with
  | nil =>
    intro e he
    cases he
  | global files =>
    intro e he
    obtain ⟨fd, -, rfl⟩ := List.mem_map.mp he
    exact ⟨fd, rfl⟩
  | node files parent ih =>
    intro e he
    obtain he | he := List.mem_append.mp he
    · have hget : files.filesByPath.get e.1 = some e.2 := Dict.mem_toList.mp ((horder i _).mem_iff.mp he)
      obtain ⟨fd, hfds, hpath⟩ := files.singleton_of_get hget
      exact ⟨fd, Prod.ext hpath.symm hfds⟩
    · exact ih (i + 1) e he

theorem lookup_local (i : Nat) (files : NamespacedFiles) (path : String) :
    (order i files.filesByPath.toList).lookup path = files.filesByPath.get path := by
  have hnd : ((order i files.filesByPath.toList).map Prod.fst).Nodup := by
    rw [((horder i _).map Prod.fst).nodup_iff, Dict.keys_toList]
    exact files.filesByPath.nodup
  refine Option.ext fun fds => ?_
  rw [lookup_eq_some_iff_mem hnd, (horder i _).mem_iff, Dict.mem_toList]

theorem findFileByPath_eq_ok (i : Nat) {c : FilesChain} (hone : c.OneFilePerPath) (path : String)
    (fd : FileDescriptor) :
    c.findFileByPath path = .ok fd ↔ (entries order i c).lookup path = some [fd] := by
  induction c generalizing i with
  | nil => simp [findFileByPath, entries]
  | global files =>
    have hnd : ((files.rangeFiles.map fun fd => (fd.path, [fd])).map Prod.fst).Nodup := by
      rw [List.map_map]
      exact hone.nodup
    rw [findFileByPath, hone.find, entries, lookup_eq_some_iff_mem hnd, List.mem_map]
    constructor
    · rintro ⟨hmem, rfl⟩
      exact ⟨fd, hmem, rfl⟩
    · rintro ⟨fd', hmem, heq⟩
      obtain ⟨rfl, rfl⟩ : fd'.path = path ∧ fd' = fd := by simpa using heq
      exact ⟨hmem, rfl⟩
  | node files parent ih =>
    rw [findFileByPath, entries, List.lookup_append, lookup_local horder]
    cases hget : files.filesByPath.get path with
    | none => exact ih (i + 1) hone
    | some fds =>
      obtain ⟨g, rfl, -⟩ := files.singleton_of_get hget
      simp

theorem mem_firsts_iff {c : FilesChain} (hone : c.OneFilePerPath) (fd : FileDescriptor) :
    fd ∈ firsts [] (entries order 0 c) ↔ c.findFileByPath fd.path = .ok fd := by
  rw [mem_firsts (singletons_entries horder 0 c), findFileByPath_eq_ok horder 0 hone]
  simp

theorem path_of_findFileByPath {c : FilesChain} (hone : c.OneFilePerPath) (h : c.findFileByPath path = .ok fd) :
    fd.path = path := by
  obtain ⟨l₁, l₂, heq, -⟩ := List.lookup_eq_some_iff.mp ((findFileByPath_eq_ok horder 0 hone path fd).mp h)
  obtain ⟨fd', hentry⟩ := singletons_entries horder 0 c (path, [fd]) (heq ▸ by simp)
  obtain ⟨rfl, rfl⟩ : path = fd'.path ∧ fd = fd' := by simpa using hentry
  rfl

end

/-- **Enumeration agrees with lookup.** A callback that always continues is called for the files that lookups
return, once for each path. One that stops at its `k`-th call is called `k` times, or once for each path that
can be found. -/
theorem rangeFilesAll_exact (horder : IterationOrder order) (c : FilesChain) (hone : c.OneFilePerPath) :
    (∀ fd, fd ∈ rangeFilesAll order (recording fun _ => true) c [] ↔ c.findFileByPath fd.path = .ok fd) ∧
      ((rangeFilesAll order (recording fun _ => true) c []).map (·.path)).Nodup ∧
      ∀ (answer : List FileDescriptor → Bool) (k : Nat) (paths : List String), 0 < k →
        (∀ calls, calls.length < k → answer calls) → (∀ calls, calls.length = k → answer calls = false) →
        paths.Nodup → (∀ p, p ∈ paths ↔ ∃ fd, c.findFileByPath p = .ok fd) →
        (rangeFilesAll order (recording answer) c []).length = min k paths.length := by
  have hnodup : ((firsts [] (entries order 0 c)).map (·.path)).Nodup := nodup_firsts (singletons_entries horder 0 c)
  refine ⟨fun fd => ?_, ?_, fun answer k paths hk hgo hstop hpaths hmem => ?_⟩
  · rw [rangeFilesAll_eq, rangeWhile_recording_true, List.nil_append]
    exact mem_firsts_iff horder hone fd
  · rw [rangeFilesAll_eq, rangeWhile_recording_true, List.nil_append]
    exact hnodup
  · have hperm : ((firsts [] (entries order 0 c)).map (·.path)).Perm paths := by
      rw [List.perm_ext_iff_of_nodup hnodup hpaths]
      intro p
      rw [hmem, List.mem_map]
      constructor
      · rintro ⟨fd, hfd, rfl⟩
        exact ⟨fd, (mem_firsts_iff horder hone fd).mp hfd⟩
      · rintro ⟨fd, hfd⟩
        have hpath := path_of_findFileByPath horder hone hfd
        exact ⟨fd, (mem_firsts_iff horder hone fd).mpr (hpath ▸ hfd), hpath⟩
    have hempty : ([] : List FileDescriptor).length < k := hk
    rw [rangeFilesAll_eq, rangeWhile_recording_stop hgo hstop _ hempty, List.nil_append, List.length_nil, Nat.sub_zero,
      List.length_take, ← hperm.length_eq, List.length_map]

theorem oneFilePerPath_globalFiles {files : List FileDescriptor} (hnd : (files.map (·.path)).Nodup) :
    (Sample.globalFiles files).OneFilePerPath where
  nodup := hnd
  find path fd := by
    have hfind : (Sample.globalFiles files).findFileByPath path = .ok fd ↔ files.find? (·.path = path) = some fd := by
      simp only [Sample.globalFiles]
      cases files.find? (·.path = path) <;> simp
    rw [hfind]
    refine ⟨fun h => ⟨List.mem_of_find?_eq_some h, by simpa using List.find?_some h⟩, ?_⟩
    rintro ⟨hmem, rfl⟩
    cases hfound : files.find? (·.path = fd.path) with
    | none => simpa using List.find?_eq_none.mp hfound fd hmem
    | some g =>
      have hpath : g.path = fd.path := by simpa using List.find?_some hfound
      rw [List.inj_on_of_nodup_map hnd (List.mem_of_find?_eq_some hfound) hmem hpath]

/-- Two paths can be found: one in a registry, and both in the global registry below it. A callback that stops
at its third call is called twice. -/
theorem rangeFilesAll_exact_shadowed : ∃ r, NamespacedFiles.new.registerFile (Sample.file "a.proto" [1]) = .ok r ∧
    (rangeFilesAll (fun _ l => l) (recording fun calls => decide (calls.length < 3)) (.node r
      (.global (Sample.globalFiles [Sample.file "a.proto" [2], Sample.file "b.proto" [3]]))) []).length = 2 := by
  obtain ⟨r, hr, hfiles⟩ : ∃ r, NamespacedFiles.new.registerFile (Sample.file "a.proto" [1]) = .ok r ∧
      r.filesByPath = Dict.empty.set "a.proto" [Sample.file "a.proto" [1]] := ⟨_, rfl, rfl⟩
  have hone := (oneFilePerPath_globalFiles (by decide) :
    (Sample.globalFiles [Sample.file "a.proto" [2], Sample.file "b.proto" [3]]).OneFilePerPath)
  refine ⟨r, hr, ?_⟩
  refine (rangeFilesAll_exact (fun _ _ => List.Perm.refl _) (.node r (.global _)) hone).2.2 _ 3 ["a.proto", "b.proto"]
    (by decide) (fun calls hlt => decide_eq_true hlt) (fun calls heq => by simp [heq]) (by decide)
    fun p => ?_
  by_cases ha : p = "a.proto"
  · subst ha
    exact ⟨fun _ => ⟨Sample.file "a.proto" [1], by rw [findFileByPath, hfiles]; rfl⟩, fun _ => by decide⟩
  · have hlocal : r.filesByPath.get p = none := by rw [hfiles, Dict.get_set_of_ne _ _ ha, Dict.get_empty]
    by_cases hb : p = "b.proto"
    · subst hb
      exact ⟨fun _ => ⟨Sample.file "b.proto" [3], by rw [findFileByPath, hlocal]; rfl⟩, fun _ => by decide⟩
    · refine ⟨fun hmem => by simp [ha, hb] at hmem, ?_⟩
      rintro ⟨fd, hfind⟩
      rw [findFileByPath, hlocal] at hfind
      obtain ⟨hmem, hpath⟩ := (hone.find p fd).mp hfind
      rcases List.mem_pair.mp hmem with rfl | rfl
      · exact absurd hpath.symm ha
      · exact absurd hpath.symm hb

end FilesChain

end ProtoRegistry
