import ProtoRegistry.Verify.Populated

/-!
# Adding schemas to the registries of a namespace, and taking them out

As long as the files of all schemas can be in one pair of registries, `applyToAggregate` and
`removeFromAggregate` do not fail, and what the registries answer depends on the files alone.
-/

namespace ProtoRegistry.Client

/-! ## What the registries hold -/

/-- The registry of files holds the files, in some order. -/
def Aggregate.HoldsFiles (agg : Aggregate) (files : List FileDescriptor) : Prop :=
  ∃ l : List FileDescriptor, l.Perm files ∧ agg.nsFiles.Holds l

/-- The registries of a namespace hold the files and their types. -/
structure Aggregate.Holds (agg : Aggregate) (files : List FileDescriptor) : Prop where
  held : agg.HoldsFiles files
  types : agg.nsTypes.Holds (files.flatMap (·.types))

theorem Aggregate.Holds.new : Aggregate.Holds ⟨.new, .new⟩ [] := ⟨⟨[], .refl _, .new⟩, .new⟩

theorem Aggregate.Holds.perm {files files' : List FileDescriptor} {agg : Aggregate} (h : agg.Holds files)
    (hperm : files.Perm files') : agg.Holds files' := by
  obtain ⟨l, hl, hfiles⟩ := h.held
  exact ⟨⟨l, hl.trans hperm, hfiles⟩, h.types.congr fun t => (hperm.flatMap_right _).mem_iff⟩

/-- The two answer every local lookup alike. -/
structure Aggregate.Answers (agg agg' : Aggregate) : Prop where
  findFileByPath : agg.nsFiles.filesByPath.get = agg'.nsFiles.filesByPath.get
  findDescriptorByName : agg.nsFiles.findDescriptorByNameLocal = agg'.nsFiles.findDescriptorByNameLocal
  findTypeByName : agg.nsTypes.typesByName.get = agg'.nsTypes.typesByName.get
  findExtensionByNumber : agg.nsTypes.extensionAt = agg'.nsTypes.extensionAt

theorem Aggregate.Holds.answers {agg agg' : Aggregate} (h : agg.Holds files) (h' : agg'.Holds files)
    (hagg : Aggregable files) : agg.Answers agg' := by
  obtain ⟨l, hl, hfiles⟩ := h.held
  obtain ⟨l', hl', hfiles'⟩ := h'.held
  obtain ⟨hpath, hname⟩ := hfiles'.answers hfiles (hagg.toCoexist.perm hl'.symm) (hl'.trans hl.symm)
  have hnumber := h.types.numbers.look_eq h'.types.numbers fun _ => Iff.rfl
  refine ⟨hpath, hname, h.types.names.look_eq h'.types.names fun _ => Iff.rfl, ?_⟩
  funext m n
  exact congrFun hnumber (m, n)

/-! ## Applying a schema -/

theorem applyFile_holds {files : List FileDescriptor} {agg : Aggregate} (sc : String)
    (hone : Aggregable (files ++ [f])) (h : agg.Holds files) :
    ∃ agg', applyFile sc f agg = .ok agg' ∧ agg'.Holds (files ++ [f]) := by
  obtain ⟨l, hperm, hfiles⟩ := h.held
  obtain ⟨files', hupdate, hfiles'⟩ := hfiles.update (f := f) (hone.toCoexist.perm (hperm.symm.append_right _))
  refine ⟨⟨files', registerFileTypesUpdate agg.nsTypes f⟩, ?_, ⟨_, hperm.append_right _, hfiles'⟩, ?_⟩
  · rw [applyFile, hupdate]
  · rw [List.flatMap_append, List.flatMap_singleton]
    exact h.types.foldl_update hone.distinct_concat

theorem applyFiles_holds {own files : List FileDescriptor} (sc : String) (hagg : Aggregable (files ++ own)) :
    StateE.Triple (fun agg : Aggregate => agg.Holds files) (own.forM fun fd => StateE.change (applyFile sc fd))
      (fun _ agg => agg.Holds (files ++ own)) fun _ _ => False := by
  have hloop := StateE.Triple.forM (l := own)
    (g := fun fd => StateE.change (applyFile sc fd)) (E := fun _ _ => False)
    (J := fun done _ (agg : Aggregate) => agg.Holds (files ++ done)) ?_
  · simp only [List.append_nil] at hloop
    exact hloop
  · intro done f rest hl agg hheld
    have hone : Aggregable (files ++ done ++ [f]) := by
      apply hagg.sublist
      rw [hl, ← List.append_assoc]
      exact (List.Sublist.refl _).append (List.singleton_sublist.mpr (List.mem_cons_self ..))
    obtain ⟨agg', happly, hheld'⟩ := applyFile_holds sc hone hheld
    rw [StateE.exec_change, happly, ← List.append_assoc]
    exact hheld'

/-! ## Taking a schema out -/

theorem filter_key_ne [DecidableEq κ] {key : α → κ} {a : α} {l : List α} (hnd : ((a :: l).map key).Nodup) :
    (a :: l).filter (key · ≠ key a) = l := by
  rw [List.map_cons, List.nodup_cons] at hnd
  rw [List.filter_cons_of_neg (by simp), List.filter_eq_self]
  intro b hb
  exact decide_eq_true fun hkey => hnd.1 (List.mem_map.mpr ⟨b, hb, hkey⟩)

theorem unregisterFiles_holds {own files : List FileDescriptor} (sc : String) (types : NamespacedTypes)
    (hco : Coexist (own ++ files)) :
    StateE.Triple (fun agg : Aggregate => agg.HoldsFiles (own ++ files) ∧ agg.nsTypes = types)
      ((own.map (·.path)).forM fun path => StateE.change (unregisterFile sc path))
      (fun _ agg => agg.HoldsFiles files ∧ agg.nsTypes = types) fun _ _ => False := by
  have hmap : ((own.map (·.path)).forM fun path => StateE.change (unregisterFile sc path)) =
      own.forM fun f => StateE.change (unregisterFile sc f.path) := List.forM_map ..
  rw [hmap]
  refine StateE.Triple.forM (J := fun _ rest (agg : Aggregate) =>
    agg.HoldsFiles (rest ++ files) ∧ agg.nsTypes = types) ?_
  intro done f rest hl agg ⟨⟨l, hperm, hfiles⟩, htypes⟩
  have hrest : Coexist (f :: rest ++ files) := by
    apply hco.sublist
    rw [hl, List.append_assoc]
    exact List.sublist_append_right _ _
  obtain ⟨r', hr', hfiles'⟩ := hfiles.unregister (hrest.perm hperm.symm) (hperm.mem_iff.mpr (List.mem_cons_self ..))
  rw [StateE.exec_change, unregisterFile, hr']
  refine ⟨⟨_, ?_, hfiles'⟩, htypes⟩
  rw [List.cons_append] at hperm hrest
  have hfilter := hperm.filter (·.path ≠ f.path)
  rwa [filter_key_ne hrest.paths] at hfilter

theorem unregisterNames_holds {own ts : List TypeDescriptor} (sc : String) (kind : TypeKind)
    (P : NamespacedFiles → Prop) (hnd : ((own ++ ts).map (·.fullName)).Nodup) (hkind : ∀ t ∈ own, t.kind = kind) :
    StateE.Triple (fun agg : Aggregate => P agg.nsFiles ∧ agg.nsTypes.Holds (own ++ ts))
      ((own.map (·.fullName)).forM fun name => StateE.change (unregisterName sc kind name))
      (fun _ agg => P agg.nsFiles ∧ agg.nsTypes.Holds ts) fun _ _ => False := by
  have hmap : ((own.map (·.fullName)).forM fun name => StateE.change (unregisterName sc kind name)) =
      own.forM fun t => StateE.change (unregisterName sc kind t.fullName) := List.forM_map ..
  rw [hmap]
  refine StateE.Triple.forM (J := fun _ rest (agg : Aggregate) =>
    P agg.nsFiles ∧ agg.nsTypes.Holds (rest ++ ts)) ?_
  intro done t rest hl agg ⟨hP, htypes⟩
  obtain ⟨r', hr', htypes'⟩ := htypes.unregister (t := t) (List.mem_cons_self ..)
  have ht : t ∈ own := by rw [hl]; exact List.mem_append_right _ (List.mem_cons_self ..)
  rw [StateE.exec_change, unregisterName, ← hkind t ht, hr']
  refine ⟨hP, ?_⟩
  have hsub : List.Sublist (t :: (rest ++ ts)) (own ++ ts) := by
    rw [hl, List.append_assoc]
    exact List.sublist_append_right _ _
  rwa [List.cons_append, filter_key_ne (hnd.sublist (hsub.map _))] at htypes'

theorem perm_kinds (ts : List TypeDescriptor) :
    ts.Perm (ts.filter (·.kind = .message) ++ (ts.filter (·.kind = .enum) ++ ts.filter (·.kind = .extension))) := by
  induction ts with
  | nil => exact .refl _
  | cons t ts ih =>
    cases hkind : t.kind with
    | message => simpa [hkind] using ih
    | enum =>
      have hmiddle := (ih.cons t).trans List.perm_middle.symm
      simpa [hkind] using hmiddle
    | extension =>
      rw [← List.append_assoc] at ih
      have hmiddle := (ih.cons t).trans List.perm_middle.symm
      simpa [hkind] using hmiddle

theorem removeFromAggregate_holds {own files : List FileDescriptor} {ss : SchemaSnapshot}
    (hcompiled : ss.Compiled own) (hjoint : Aggregable (own ++ files)) :
    StateE.Triple (fun agg : Aggregate => agg.Holds (own ++ files)) (removeFromAggregate ss)
      (fun _ agg => agg.Holds files) fun _ _ => False := by
  let ofKind (kind : TypeKind) : List TypeDescriptor := (own.flatMap (·.types)).filter (·.kind = kind)
  let left := files.flatMap (·.types)
  have hkinds : ((own ++ files).flatMap (·.types)).Perm
      (ofKind .message ++ (ofKind .enum ++ (ofKind .extension ++ left))) := by
    rw [List.flatMap_append]
    have happend := (perm_kinds (own.flatMap (·.types))).append_right left
    rwa [List.append_assoc, List.append_assoc] at happend
  have hnd : ((ofKind .message ++ (ofKind .enum ++ (ofKind .extension ++ left))).map (·.fullName)).Nodup :=
    (hkinds.map _).nodup_iff.mp hjoint.distinct.names
  have hnd₁ := hnd.sublist ((List.sublist_append_right _ _).map _)
  have hnd₂ := hnd₁.sublist ((List.sublist_append_right _ _).map _)
  have hkind : ∀ kind, ∀ t ∈ ofKind kind, t.kind = kind := fun kind t ht =>
    of_decide_eq_true (List.mem_filter.mp ht).2
  let Held (files' : NamespacedFiles) : Prop := ∃ l : List FileDescriptor, l.Perm files ∧ files'.Holds l
  rw [removeFromAggregate, hcompiled.fingerprint]
  intro agg hagg
  refine StateE.Triple.bind (Q := fun _ agg' => agg'.HoldsFiles files ∧ agg'.nsTypes = agg.nsTypes)
    (unregisterFiles_holds ss.schemaID agg.nsTypes hjoint.toCoexist) (fun _ => ?_) agg ⟨hagg.held, rfl⟩
  refine StateE.Triple.bind (Q := fun _ agg' => Held agg'.nsFiles ∧
    agg'.nsTypes.Holds (ofKind .enum ++ (ofKind .extension ++ left))) ?_ fun _ => ?_
  · refine (unregisterNames_holds ss.schemaID .message Held hnd (hkind .message)).weaken ?_
      (fun _ _ h => h) fun _ _ h => h
    intro agg' ⟨hfiles, htypes⟩
    exact ⟨hfiles, htypes ▸ hagg.types.congr fun _ => hkinds.mem_iff⟩
  refine StateE.Triple.bind (unregisterNames_holds ss.schemaID .enum Held hnd₁ (hkind .enum)) fun _ => ?_
  exact (unregisterNames_holds ss.schemaID .extension Held hnd₂ (hkind .extension)).weaken (fun _ h => h)
    (fun _ _ h => ⟨h.1, h.2⟩) fun _ _ h => h

end ProtoRegistry.Client
