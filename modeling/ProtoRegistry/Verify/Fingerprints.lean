import ProtoRegistry.Theory.Framing
import ProtoRegistry.Verify.Filenames
import ProtoRegistry.Verify.Sources

/-! What a fingerprint says about the files it was computed from. The text under the hash has a line
`name:hash` for each file, in the order of the names, and the names a Publish request may carry can have
colons and newlines of their own. So the text determines the lines of the form `name:hash` that it is cut
into, and the files only if they hide no such line in a name. -/

namespace ProtoRegistry
open RegistryM

def isHexDigit (c : Char) : Bool :=
  c.isDigit || ('a' ≤ c && c ≤ 'f') || ('A' ≤ c && c ≤ 'F')

/-- The line that `ComputeFingerprint` writes for a file. -/
def fingerprintLine : Framing Char where
  mark := ':'
  stop := '\n'
  width := 64
  inBody := isHexDigit
  mark_ne_stop := by decide
  inBody_mark := by decide
  inBody_stop := by decide

def FileResult.entry (f : FileResult) : List Char × List Char := (f.filename.toList, f.blobSHA256.toList)

/-- The files of a version: distinct names, and hashes of 64 hexadecimal digits. -/
structure HashedFiles (files : List FileResult) : Prop where
  nodup : (files.map (·.filename)).Nodup
  hashes : ∀ f ∈ files, fingerprintLine.Body f.blobSHA256.toList

def SameFiles (a b : List FileResult) : Prop :=
  ∀ filename hash, (∃ f ∈ a, f.filename = filename ∧ f.blobSHA256 = hash) ↔
    ∃ f ∈ b, f.filename = filename ∧ f.blobSHA256 = hash

/-! ## The sorted entries -/

def entries (files : List FileResult) : List (List Char × List Char) :=
  (sortFileResults files).map FileResult.entry

theorem mem_sortFileResults {files : List FileResult} : f ∈ sortFileResults files ↔ f ∈ files :=
  (List.perm_insertionSort _ files).mem_iff

theorem HashedFiles.body {files : List FileResult} (h : HashedFiles files) :
    ∀ e ∈ entries files, fingerprintLine.Body e.2 := by
  intro e he
  obtain ⟨f, hf, rfl⟩ := List.mem_map.mp he
  exact h.hashes f (mem_sortFileResults.mp hf)

theorem mem_entries {files : List FileResult} {e : List Char × List Char} :
    e ∈ entries files ↔ ∃ f ∈ files, f.entry = e := by
  simp only [entries, List.mem_map, mem_sortFileResults]

theorem sameFiles_iff {a b : List FileResult} : SameFiles a b ↔ ∀ e, e ∈ entries a ↔ e ∈ entries b := by
  have hentry (files : List FileResult) (e : List Char × List Char) : e ∈ entries files ↔
      ∃ f ∈ files, f.filename = String.ofList e.1 ∧ f.blobSHA256 = String.ofList e.2 := by
    rw [mem_entries]
    simp [FileResult.entry, Prod.ext_iff, ← String.toList_inj]
  constructor
  · intro h e
    rw [hentry, hentry, h]
  · intro h filename hash
    have he := h (filename.toList, hash.toList)
    rw [hentry, hentry] at he
    simpa using he

theorem HashedFiles.entry_inj {files : List FileResult} (h : HashedFiles files) {e e' : List Char × List Char}
    (he : e ∈ entries files) (he' : e' ∈ entries files) (hname : e.1 = e'.1) : e = e' := by
  obtain ⟨f, hf, rfl⟩ := mem_entries.mp he
  obtain ⟨g, hg, rfl⟩ := mem_entries.mp he'
  rw [List.inj_on_of_nodup_map h.nodup hf hg (String.toList_inj.mp hname)]

theorem HashedFiles.nodup_entries {files : List FileResult} (h : HashedFiles files) : (entries files).Nodup := by
  have hnames : ((sortFileResults files).map (·.filename)).Nodup :=
    ((List.perm_insertionSort _ files).map _).nodup_iff.mpr h.nodup
  apply List.Nodup.of_map (fun e => String.ofList e.1)
  rw [entries, List.map_map]
  simpa [Function.comp_def, FileResult.entry] using hnames

theorem pairwise_entries (files : List FileResult) :
    (entries files).Pairwise fun e e' => String.ofList e.1 ≤ String.ofList e'.1 := by
  have hsorted : (sortFileResults files).Pairwise fun f g => f.filename ≤ g.filename :=
    List.pairwise_insertionSort _ _
  rw [entries, List.pairwise_map]
  simpa [FileResult.entry] using hsorted

theorem entries_eq_iff {a b : List FileResult} (ha : HashedFiles a) (hb : HashedFiles b) :
    entries a = entries b ↔ SameFiles a b := by
  rw [sameFiles_iff]
  constructor
  · intro h e
    rw [h]
  · intro h
    apply List.Perm.eq_of_pairwise _ (pairwise_entries a) (pairwise_entries b)
      ((List.perm_ext_iff_of_nodup ha.nodup_entries hb.nodup_entries).mpr h)
    intro e e' he he' hle hle'
    have hname : e.1 = e'.1 := String.ofList_injective (le_antisymm hle hle')
    exact hb.entry_inj ((h e).mp he) he' hname

/-! ## The fingerprint -/

theorem computeFingerprint_eq (env : External) (files : List FileResult) :
    computeFingerprint env files = env.sha256Hex (String.ofList ((entries files).flatMap fingerprintLine.text)) := by
  unfold computeFingerprint
  congr 1
  rw [← String.toList_inj, String.toList_join, String.toList_ofList, entries, List.flatMap_map, List.flatMap_map]
  congr 1
  funext f
  simp [FileResult.entry, Framing.text, fingerprintLine]

/-- The lines of the form `name:hash` in the text of these files. -/
def fingerprintLines (files : List FileResult) : List (List Char × List Char) :=
  (entries files).flatMap fingerprintLine.records

/-- How many such lines each of the files takes: more than one if its name hides one. -/
def fingerprintCuts (files : List FileResult) : List Nat :=
  (entries files).map fun e => (fingerprintLine.records e).length

theorem computeFingerprint_eq_iff {env : External} (hsha : Function.Injective env.sha256Hex)
    {a b : List FileResult} (ha : HashedFiles a) (hb : HashedFiles b) :
    computeFingerprint env a = computeFingerprint env b ↔ fingerprintLines a = fingerprintLines b := by
  rw [computeFingerprint_eq, computeFingerprint_eq, hsha.eq_iff, String.ofList_inj]
  exact Framing.flatMap_text_eq_iff ha.body hb.body

theorem sameFiles_iff_of_lines_eq {a b : List FileResult} (ha : HashedFiles a) (hb : HashedFiles b)
    (hlines : fingerprintLines a = fingerprintLines b) : SameFiles a b ↔ fingerprintCuts a = fingerprintCuts b := by
  rw [← entries_eq_iff ha hb]
  constructor
  · intro h
    rw [fingerprintCuts, h]
    rfl
  · exact Framing.eq_of_records_eq ha.body hb.body hlines

/-! ## Publishing -/

/-- The files with which `isUnchanged` compares a request. -/
def Store.comparedFiles (s : Store) (ns sc : String) : Option (List FileResult) :=
  (s.pointers ns sc).proposed.map fun v =>
    (s.getVersionFiles ns sc v).map fun f => ⟨f.filename, f.blobSHA256, []⟩

/-- These are the files of a request, with the hashes of their tokens. -/
def Submits (env : External) (sources : Sources) (files : List FileResult) : Prop :=
  (sources.toList.mapM fun e => normalizeAndHash env e.1 e.2) = .ok files

theorem submits_of_compile {c : Compiler} {env : External} {sources : Sources}
    (h : c.compile env v sources deps tiers builtins = .ok result) : Submits env sources result.files := by
  obtain ⟨fileResults, linked, snap, -, hresults, -, -, rfl⟩ := Compiler.compile_eq_ok.mp h
  exact mapM_eq_ok_mono (fun e _ f hf => mapError_eq_ok.mp hf) hresults

theorem comparedFiles_perform {op : Op} (htouch : ¬op.Touches ns sc)
    (hput : ∀ ns sc v row, op ≠ .store (.putVersion ns sc v row)) (w : World) :
    (World.perform op w).2.store.comparedFiles ns sc = w.store.comparedFiles ns sc := by
  cases op with
  | store op =>
    have hversions : (w.store.perform op).2.versions = w.store.versions :=
      Store.versions_perform fun ns sc v row heq => hput ns sc v row (congrArg Op.store heq)
    have hpointers : (w.store.perform op).2.pointers ns sc = w.store.pointers ns sc := Store.pointers_perform htouch
    show (w.store.perform op).2.comparedFiles ns sc = w.store.comparedFiles ns sc
    simp only [Store.comparedFiles, Store.getVersionFiles, hpointers, hversions]
  | mem op => rfl

theorem comparedFiles_ensureNamespaceAndSchema {w w' : World}
    (h : (ensureNamespaceAndSchema ns sc).exec w = (.ok u, w')) :
    w'.store.comparedFiles ns sc = w.store.comparedFiles ns sc := by
  let A (op : Op) : Prop := ¬op.Touches ns sc ∧ ∀ ns sc v row, op ≠ .store (.putVersion ns sc v row)
  have huses : Uses A (ensureNamespaceAndSchema ns sc) := by
    refine Within.done (ensureNamespaceAndSchema_scoped ?_ ?_ ?_ ?_)
    all_goals exact ⟨id, by simp⟩
  exact keeps_of_uses (g := fun w => w.store.comparedFiles ns sc) huses
    (fun op w hop => comparedFiles_perform hop.1 hop.2 w) h

theorem noChange_of_publish {r : Registry} {req : PublishRequest} {w w' : World}
    (h : (r.publish req).exec w = (.ok res, w')) (hsame : res.noChange = true) :
    ∃ files compared, Submits r.env req.sources files ∧
      w.store.comparedFiles req.namespaceID req.schemaID = some compared ∧
      computeFingerprint r.env files = computeFingerprint r.env compared := by
  obtain ⟨-, -, w₁, w₂, v, result, hrows, hw₂, hnext, -, hstored⟩ := Registry.publish_eq_ok h
  obtain ⟨-, -, deps, tiers, builtins, -, -, -, hcompile⟩ := Registry.compileNext_eq_ok.mp hnext
  have hcompared := comparedFiles_ensureNamespaceAndSchema hrows
  obtain ⟨hunchanged, -⟩ | hstored := hstored
  · subst hw₂
    unfold Store.unchanged at hunchanged
    unfold Store.comparedFiles at hcompared
    cases hproposed : (w₁.store.pointers req.namespaceID req.schemaID).proposed with
    | none => simp [hproposed] at hunchanged
    | some v =>
      simp only [hproposed, decide_eq_true_eq] at hunchanged
      simp only [hproposed, Option.map_some] at hcompared
      exact ⟨result.files, _, submits_of_compile hcompile, hcompared.symm, hunchanged.symm⟩
  · have hmemory : (w₂.memory.namespaces.get req.namespaceID).isSome := by
      rw [hw₂]
      exact Namespaces.isSome_getOrCreate _
    obtain ⟨rfl, -⟩ := Registry.storeVersion_eq_ok hmemory hstored
    cases hsame

/-- The fingerprint tells these two lists of files apart, and so does Publish. -/
structure FingerprintIdentifies (env : External) (a b : List FileResult) : Prop where
  fingerprint : computeFingerprint env a = computeFingerprint env b ↔ SameFiles a b
  publish : ∀ (r : Registry) req w res w', r.env = env → (r.publish req).exec w = (.ok res, w') →
    res.noChange = true → Submits env req.sources a →
    w.store.comparedFiles req.namespaceID req.schemaID = some b → SameFiles a b

section
variable {env : External} (hsha : Function.Injective env.sha256Hex) {a b : List FileResult}
  (ha : HashedFiles a) (hb : HashedFiles b)
include hsha ha hb

theorem fingerprintIdentifies_of_cuts
    (h : fingerprintLines a = fingerprintLines b → fingerprintCuts a = fingerprintCuts b) :
    FingerprintIdentifies env a b := by
  have hsame : computeFingerprint env a = computeFingerprint env b → SameFiles a b := by
    intro heq
    have hlines := (computeFingerprint_eq_iff hsha ha hb).mp heq
    exact (sameFiles_iff_of_lines_eq ha hb hlines).mpr (h hlines)
  refine ⟨⟨hsame, fun hfiles => ?_⟩, ?_⟩
  · rw [computeFingerprint_eq, (entries_eq_iff ha hb).mpr hfiles, ← computeFingerprint_eq]
  · rintro r req w res w' rfl hpublish hnoChange ha hb
    obtain ⟨files, compared, hfiles, hcompared, heq⟩ := noChange_of_publish hpublish hnoChange
    cases Except.ok.inj (hfiles.symm.trans ha)
    cases Option.some.inj (hcompared.symm.trans hb)
    exact hsame heq

/-- Names without a newline are told apart. -/
theorem fingerprintIdentifies_of_no_newline (hna : ∀ f ∈ a, '\n' ∉ f.filename.toList)
    (hnb : ∀ f ∈ b, '\n' ∉ f.filename.toList) : FingerprintIdentifies env a b := by
  have hlines {files : List FileResult} (hfiles : HashedFiles files)
      (hnames : ∀ f ∈ files, '\n' ∉ f.filename.toList) : ∀ e ∈ entries files, fingerprintLine.records e = [e] := by
    intro e he
    obtain ⟨f, hf, rfl⟩ := mem_entries.mp he
    exact Framing.records_of_notMem (hfiles.hashes f hf) (hnames f hf)
  have hones {files : List FileResult} (h : ∀ e ∈ entries files, fingerprintLine.records e = [e]) :
      fingerprintLines files = entries files := by
    rw [fingerprintLines, List.flatMap_congr h, List.flatMap_singleton']
  apply fingerprintIdentifies_of_cuts hsha ha hb
  intro heq
  rw [hones (hlines ha hna), hones (hlines hb hnb)] at heq
  rw [fingerprintCuts, heq]
  rfl

/-- **The fingerprint identifies the files**, unless the two lists have the same lines and hide them in
different names. -/
theorem fingerprintIdentifies_iff : FingerprintIdentifies env a b ↔
    ¬(fingerprintLines a = fingerprintLines b ∧ fingerprintCuts a ≠ fingerprintCuts b) := by
  constructor
  · rintro ⟨hsame, -⟩ ⟨hlines, hcuts⟩
    rw [computeFingerprint_eq_iff hsha ha hb] at hsame
    exact hcuts ((sameFiles_iff_of_lines_eq ha hb hlines).mp (hsame.mp hlines))
  · intro h
    apply fingerprintIdentifies_of_cuts hsha ha hb
    intro hlines
    by_contra hcuts
    exact h ⟨hlines, hcuts⟩

end

namespace Sample

def hash (c : Char) : String := String.ofList (List.replicate 64 c)

/-- Two files, and one file whose name holds the line of the first. -/
def apart : List FileResult := [⟨"a.proto", hash '1', []⟩, ⟨"b.proto", hash '2', []⟩]

def merged : List FileResult := [⟨"a.proto:" ++ hash '1' ++ "\nb.proto", hash '2', []⟩]

instance (body : List Char) : Decidable (fingerprintLine.Body body) :=
  decidable_of_iff (body.length = fingerprintLine.width ∧ body.all isHexDigit) (by rw [List.all_eq_true]; rfl)

theorem hashed_apart : HashedFiles apart := ⟨by decide +kernel, by decide +kernel⟩

theorem hashed_merged : HashedFiles merged := ⟨by decide +kernel, by decide +kernel⟩

end Sample

theorem fingerprintIdentifies_iff_apart : Function.Injective Sample.env.sha256Hex ∧
    HashedFiles Sample.apart ∧ HashedFiles (Sample.apart.take 1) ∧
    FingerprintIdentifies Sample.env Sample.apart (Sample.apart.take 1) := by
  have hfirst : HashedFiles (Sample.apart.take 1) := ⟨by decide +kernel, by decide +kernel⟩
  refine ⟨Function.injective_id, Sample.hashed_apart, hfirst, ?_⟩
  exact (fingerprintIdentifies_iff Function.injective_id Sample.hashed_apart hfirst).mpr (by decide +kernel)

/-- The server accepts all three names. -/
theorem computeFingerprint_merged :
    (∀ f ∈ Sample.apart ++ Sample.merged, validateFilename Sample.serverExternal f.filename 512 = .ok ()) ∧
      HashedFiles Sample.apart ∧ HashedFiles Sample.merged ∧
      computeFingerprint Sample.env Sample.apart = computeFingerprint Sample.env Sample.merged ∧
      ¬SameFiles Sample.apart Sample.merged := by
  refine ⟨by decide +kernel, Sample.hashed_apart, Sample.hashed_merged, by decide +kernel, ?_⟩
  intro h
  have hfirst := (h "a.proto" (Sample.hash '1')).mp ⟨_, List.mem_cons_self, rfl, rfl⟩
  revert hfirst
  decide +kernel

end ProtoRegistry
