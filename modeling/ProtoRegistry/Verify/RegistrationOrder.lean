import ProtoRegistry.Verify.Compiled
import ProtoRegistry.Verify.TypesRuns

/-!
# The order of registration

`RegisterFile` accepts valid files in one order exactly when it accepts them in every order, and the
registries answer alike. The loop of `compileSchema` registers the types of each file as well. Extension
numbers are checked there, and that check is symmetric, too.
-/

namespace ProtoRegistry

theorem Dict.countP_values_congr {K V : Type} {d d' : Dict K V} (h : d.get = d'.get) (p : V → Bool) :
    d.values.countP p = d'.values.countP p := by
  have hkeys : d.keys.Perm d'.keys := by
    rw [List.perm_ext_iff_of_nodup d.nodup d'.nodup]
    intro k
    rw [d.mem_keys, d'.mem_keys, h]
  rw [countP_values, countP_values, h]
  exact hkeys.countP_eq _

namespace Client

open NamespacedFiles (registerFiles gathered_registerFiles registerFiles_ok_iff)

variable {files files' : List FileDescriptor} {c c' : Compiling}

/-- What a compiled schema is asked is answered alike by the two, and they add the same entries to the
registries of the namespace. -/
structure SchemaSnapshot.SameView (ss ss' : SchemaSnapshot) : Prop where
  schemaID : ss.schemaID = ss'.schemaID
  version : ss.version = ss'.version
  rawDescriptorSet : ss.rawDescriptorSet = ss'.rawDescriptorSet
  files : ss.files.SameAnswers ss'.files
  typesByName : ss.types.typesByName.get = ss'.types.typesByName.get
  extensionAt : ss.types.extensionAt = ss'.types.extensionAt
  num : ∀ kind, ss.types.num kind = ss'.types.num kind
  filePaths : ss.aggFingerprint.filePaths.Perm ss'.aggFingerprint.filePaths
  messages : ss.aggFingerprint.messages.Perm ss'.aggFingerprint.messages
  enums : ss.aggFingerprint.enums.Perm ss'.aggFingerprint.enums
  extensions : ss.aggFingerprint.extensions.Perm ss'.aggFingerprint.extensions

theorem consistent_compileFiles (h : files.foldlM Compiling.addFile {} = .ok c) : c.types.Consistent := by
  refine foldlM_inv (J := fun _ c => c.types.Consistent) .new ?_ h
  intro _ f c c' _ hdone hstep
  rw [Compiling.addFile] at hstep
  split at hstep
  · cases hstep
  · split at hstep
    · cases hstep
    · next types htypes =>
      cases hstep
      exact foldlM_inv (J := fun _ r => NamespacedTypes.Consistent r) hdone (fun _ _ _ _ _ hr => hr.register) htypes

theorem namesOfKind_perm {ts us : List TypeDescriptor} (hperm : ts.Perm us) (kind : TypeKind) :
    (namesOfKind kind ts).Perm (namesOfKind kind us) := (hperm.filter _).map _

/-- The same files in another order make the same view. -/
theorem sameView_of_perm (hwell : ∀ f ∈ files, f.WellNamed) (hperm : files.Perm files')
    (hc : files.foldlM Compiling.addFile {} = .ok c) (hc' : files'.foldlM Compiling.addFile {} = .ok c') :
    SchemaSnapshot.SameView ⟨sc, v, c.files, c.types, c.fp, fdset⟩ ⟨sc, v, c'.files, c'.types, c'.fp, fdset⟩ := by
  have hwell' : ∀ f ∈ files', f.WellNamed := fun f hf => hwell f (hperm.mem_iff.mpr hf)
  have hgathered := gathered_registerFiles hwell (registerFiles_of_compileFiles hc)
  have hgathered' := gathered_registerFiles hwell' (registerFiles_of_compileFiles hc')
  obtain ⟨-, htypes, -, hfp⟩ := compileFiles_spec hc
  obtain ⟨-, htypes', -, hfp'⟩ := compileFiles_spec hc'
  have hts : (files.flatMap (·.types)).Perm (files'.flatMap (·.types)) := hperm.flatMap_right _
  have hget : c.types.typesByName.get = c'.types.typesByName.get :=
    htypes.names.look_eq htypes'.names fun _ => hts.mem_iff
  have hnumber := htypes.numbers.look_eq htypes'.numbers fun _ => (hts.filterMap _).mem_iff
  refine ⟨rfl, rfl, rfl, hgathered.sameAnswers hgathered' hperm, hget, ?_, fun kind => ?_, ?_, ?_, ?_, ?_⟩
  · funext m n
    exact congrFun hnumber (m, n)
  · rw [(consistent_compileFiles hc).counts, (consistent_compileFiles hc').counts]
    exact congrArg Nat.cast (Dict.countP_values_congr hget _)
  · rw [hfp, hfp']
    exact hperm.map _
  · rw [hfp, hfp']
    exact namesOfKind_perm hts .message
  · rw [hfp, hfp']
    exact namesOfKind_perm hts .enum
  · rw [hfp, hfp']
    exact namesOfKind_perm hts .extension

theorem compileSchema_ok_iff {env : External} (hfiles : env.newFiles fdset = .ok files) :
    compileSchema env ns sc v fdset = .ok ss ↔
      ∃ c, files.foldlM Compiling.addFile {} = .ok c ∧ ss = ⟨sc, v, c.files, c.types, c.fp, fdset⟩ := by
  rw [compileSchema, hfiles]
  cases hc : files.foldlM Compiling.addFile {} with
  | error e => simp [hc]
  | ok c => simp [hc, eq_comm]

theorem exists_compileSchema_iff {env : External} (hfiles : env.newFiles fdset = .ok files)
    (hwell : ∀ f ∈ files, f.WellNamed) : (∃ ss, compileSchema env ns sc v fdset = .ok ss) ↔ Aggregable files := by
  rw [← compileFiles_ok_iff hwell]
  simp only [compileSchema_ok_iff hfiles]
  exact ⟨fun ⟨_, c, hc, _⟩ => ⟨c, hc⟩, fun ⟨c, hc⟩ => ⟨_, c, hc, rfl⟩⟩

/-- **Registration order does not matter.** Valid files are registered in one order if and only if they are in
any other, and the registries answer alike. Whether a descriptor set compiles does not depend on the order in
which its files are visited either, and neither does what the schema answers. -/
theorem registration_order (hwell : ∀ f ∈ files, f.WellNamed) (hperm : files.Perm files') :
    ((∃ r, registerFiles files = .ok r) ↔ ∃ r', registerFiles files' = .ok r') ∧
      (∀ r r', registerFiles files = .ok r → registerFiles files' = .ok r' → r.SameAnswers r') ∧
      ∀ (env env' : External) (ns sc : String) (v : Nat) (fdset : List FileDescriptor),
        env.newFiles fdset = .ok files → env'.newFiles fdset = .ok files' →
          ((∃ ss, compileSchema env ns sc v fdset = .ok ss) ↔ ∃ ss', compileSchema env' ns sc v fdset = .ok ss') ∧
            ∀ ss ss', compileSchema env ns sc v fdset = .ok ss → compileSchema env' ns sc v fdset = .ok ss' →
              ss.SameView ss' := by
  have hwell' : ∀ f ∈ files', f.WellNamed := fun f hf => hwell f (hperm.mem_iff.mpr hf)
  refine ⟨?_, fun r r' hr hr' => ?_, fun env env' ns sc v fdset hfiles hfiles' => ⟨?_, fun ss ss' hss hss' => ?_⟩⟩
  · rw [registerFiles_ok_iff hwell, registerFiles_ok_iff hwell']
    exact ⟨fun h => h.perm hperm, fun h => h.perm hperm.symm⟩
  · exact (gathered_registerFiles hwell hr).sameAnswers (gathered_registerFiles hwell' hr') hperm
  · rw [exists_compileSchema_iff hfiles hwell, exists_compileSchema_iff hfiles' hwell']
    exact ⟨fun h => h.perm hperm, fun h => h.perm hperm.symm⟩
  · obtain ⟨c, hc, rfl⟩ := (compileSchema_ok_iff hfiles).mp hss
    obtain ⟨c', hc', rfl⟩ := (compileSchema_ok_iff hfiles').mp hss'
    exact sameView_of_perm hwell hperm hc hc'

/-- A message with the name of a package, and a file in that package: registering the file meets the message,
and registering the message meets the package. -/
theorem registration_order_conflict :
    let message := Sample.fileIn "a.proto" [] "p"
    let inside := Sample.fileIn "b.proto" ["p"] "M"
    registerFiles [message, inside] = .error (.packageConflict "b.proto" ["p"]) ∧
      ¬ ∃ r, registerFiles [inside, message] = .ok r := by
  intro message inside
  have hwell : ∀ f ∈ [message, inside], f.WellNamed := by decide
  have horder := (registration_order hwell (List.Perm.swap inside message [])).1
  have hfirst : registerFiles [message, inside] = .error (.packageConflict "b.proto" ["p"]) := rfl
  refine ⟨hfirst, fun h => ?_⟩
  obtain ⟨r, hr⟩ := horder.mpr h
  cases hfirst.symm.trans hr

end Client

end ProtoRegistry
