import ProtoRegistry.Model.Walks
import ProtoRegistry.Verify.Aggregates
import ProtoRegistry.Verify.RegistrationOrder
import ProtoRegistry.Verify.Reregistration

/-!
# The walks agree

Every walk treats a message before what is nested in it, and then the nested messages, the enums and the
extensions. One induction over the nesting shows that such a walk is the loop over `types`, and each of the
four is one. So a schema takes out of the registries of a namespace what it put there.
-/

namespace ProtoRegistry.Client.Walks

/-! ## One walk for all -/

section
variable {m : Type → Type} [Monad m] [LawfulMonad m] {σ : Type} {step : σ → TypeDescriptor → m σ}
  {walk : σ → MessageDescriptor → m σ} {ms : List MessageDescriptor}

theorem foldlM_messages (h : ∀ msg ∈ ms, ∀ s, walk s msg = msg.types.foldlM step s) (s : σ) :
    ms.foldlM walk s = (messagesTypes ms).foldlM step s := by
  induction ms generalizing s with
  | nil => rfl
  | cons msg ms ih =>
    rw [messagesTypes, List.foldlM_append, List.foldlM_cons, h msg (List.mem_cons_self ..)]
    simp only [ih fun msg hmsg => h msg (List.mem_cons_of_mem _ hmsg)]

theorem foldlM_nested (h : ∀ msg ∈ ms, ∀ s, walk s msg = msg.types.foldlM step s) (es : List EnumDescriptor)
    (xs : List FieldDescriptor) (s : σ) :
    (do
      let s ← ms.foldlM walk s
      let s ← es.foldlM (fun s e => step s (.enum e)) s
      xs.foldlM (fun s x => step s (.extension x)) s) =
      (messagesTypes ms ++ es.map TypeDescriptor.enum ++ xs.map TypeDescriptor.extension).foldlM step s := by
  simp only [List.foldlM_append, List.foldlM_map, foldlM_messages h, bind_assoc]

variable (step walk) in
/-- The walk treats a message, then its nested messages, its enums and its extensions. -/
def IsWalk : Prop := ∀ s msg, walk s msg = (do
  let s ← step s (.message msg)
  let s ← msg.messages.foldlM walk s
  let s ← msg.enums.foldlM (fun s e => step s (.enum e)) s
  msg.extensions.foldlM (fun s x => step s (.extension x)) s)

/-- Such a walk is the loop over the types of the message. -/
theorem IsWalk.message (h : IsWalk step walk) (msg : MessageDescriptor) (s : σ) :
    walk s msg = msg.types.foldlM step s := by
  induction msg using MessageDescriptor.nested_induction generalizing s with
  | h msg ih =>
    obtain ⟨n, fs, os, ms, es, xs⟩ := msg
    rw [h, MessageDescriptor.types, List.foldlM_cons]
    simp only [← foldlM_nested ih]

/-- The loops over the declarations of a file are the loop over its types. -/
theorem IsWalk.file (h : IsWalk step walk) (fd : FileDescriptor) (s : σ) : (do
      let s ← fd.messages.foldlM walk s
      let s ← fd.enums.foldlM (fun s e => step s (.enum e)) s
      fd.extensions.foldlM (fun s x => step s (.extension x)) s) = fd.types.foldlM step s :=
  foldlM_nested (fun msg _ => h.message msg) fd.enums fd.extensions s

end

theorem file_eq_foldl {σ : Type} (step : σ → TypeDescriptor → σ) {walk : σ → MessageDescriptor → σ}
    (h : ∀ s msg, walk s msg = msg.extensions.foldl (fun s x => step s (.extension x))
      (msg.enums.foldl (fun s e => step s (.enum e)) (msg.messages.foldl walk (step s (.message msg)))))
    (fd : FileDescriptor) (s : σ) :
    fd.extensions.foldl (fun s x => step s (.extension x))
      (fd.enums.foldl (fun s e => step s (.enum e)) (fd.messages.foldl walk s)) = fd.types.foldl step s := by
  simp only [List.foldl_eq_foldlM] at h ⊢
  exact IsWalk.file (m := Id) h fd s

/-! ## The four walks -/

section
variable {σ ε : Type} (on : TypeMethods σ ε)

/-- The method for a type. -/
def TypeMethods.call (s : σ) : TypeDescriptor → Except ε σ
  | .message m => on.message s m
  | .enum e => on.enum s e
  | .extension x => on.extension s x

theorem registerNestedTypes_eq (ms : List MessageDescriptor) (s : σ) :
    registerNestedTypes on s ms = ms.foldlM (registerMessageTypes on) s := by
  induction ms generalizing s with
  | nil => rfl
  | cons msg ms ih =>
    rw [registerNestedTypes, List.foldlM_cons]
    simp only [ih]

theorem registerFileTypes_eq (s : σ) (fd : FileDescriptor) : registerFileTypes on s fd = fd.types.foldlM on.call s := by
  have hwalk : IsWalk on.call (registerMessageTypes on) := by
    intro s msg
    obtain ⟨n, fs, os, ms, es, xs⟩ := msg
    rw [registerMessageTypes]
    simp only [registerNestedTypes_eq]
    rfl
  rw [registerFileTypes, ← hwalk.file]
  simp only [registerNestedTypes_eq]
  rfl

theorem registerNestedTypesUpdate_eq (ms : List MessageDescriptor) (s : σ) :
    registerNestedTypesUpdate on s ms = ms.foldlM (registerMessageTypesUpdate on) s := by
  induction ms generalizing s with
  | nil => rfl
  | cons msg ms ih =>
    rw [registerNestedTypesUpdate, List.foldlM_cons]
    simp only [ih]

theorem registerFileTypesUpdate_eq (s : σ) (fd : FileDescriptor) :
    registerFileTypesUpdate on s fd = fd.types.foldlM on.call s := by
  have hwalk : IsWalk on.call (registerMessageTypesUpdate on) := by
    intro s msg
    obtain ⟨n, fs, os, ms, es, xs⟩ := msg
    rw [registerMessageTypesUpdate]
    simp only [registerNestedTypesUpdate_eq]
    rfl
  rw [registerFileTypesUpdate, ← hwalk.file]
  simp only [registerNestedTypesUpdate_eq]
  rfl

end

/-- Note the name of a type under its kind. -/
def collectType (fp : AggFingerprint) : TypeDescriptor → AggFingerprint
  | .message m => { fp with messages := fp.messages ++ [m.fullName] }
  | .enum e => collectEnum fp e
  | .extension x => collectExtension fp x

theorem collectNested_eq (ms : List MessageDescriptor) (fp : AggFingerprint) :
    collectNested fp ms = ms.foldl collectMessage fp := by
  induction ms generalizing fp with
  | nil => rfl
  | cons msg ms ih => rw [collectNested, List.foldl_cons, ih]

theorem collect_eq_foldl (fp : AggFingerprint) (fd : FileDescriptor) :
    collect fp fd = fd.types.foldl collectType { fp with filePaths := fp.filePaths ++ [fd.path] } := by
  have hwalk : ∀ fp msg, collectMessage fp msg = msg.extensions.foldl (fun fp x => collectType fp (.extension x))
      (msg.enums.foldl (fun fp e => collectType fp (.enum e))
        (msg.messages.foldl collectMessage (collectType fp (.message msg)))) := by
    intro fp msg
    obtain ⟨n, fs, os, ms, es, xs⟩ := msg
    rw [collectMessage, collectNested_eq]
    rfl
  rw [← file_eq_foldl collectType hwalk, collect, collectNested_eq]
  rfl

section
variable {σ : Type} (fn : σ → FullName → σ)

theorem rangeNestedDescriptors_eq (ms : List MessageDescriptor) (s : σ) :
    rangeNestedDescriptors fn s ms = ms.foldl (rangeMessageDescriptors fn) s := by
  induction ms generalizing s with
  | nil => rfl
  | cons msg ms ih => rw [rangeNestedDescriptors, List.foldl_cons, ih]

theorem rangeFileDescriptors_eq (s : σ) (fd : FileDescriptor) :
    rangeFileDescriptors fn s fd = (Client.rangeFileDescriptors fd).foldl fn s := by
  have hwalk : ∀ s msg, rangeMessageDescriptors fn s msg = msg.extensions.foldl (fun s x => fn s x.fullName)
      (msg.enums.foldl (fun s e => fn s e.fullName)
        (msg.messages.foldl (rangeMessageDescriptors fn) (fn s msg.fullName))) := by
    intro s msg
    obtain ⟨n, fs, os, ms, es, xs⟩ := msg
    rw [rangeMessageDescriptors, rangeNestedDescriptors_eq]
  have htypes : fd.extensions.foldl (fun s x => fn s x.fullName)
      (fd.enums.foldl (fun s e => fn s e.fullName) (fd.messages.foldl (rangeMessageDescriptors fn) s)) =
      fd.types.foldl (fun s t => fn s t.fullName) s := file_eq_foldl (fun s t => fn s t.fullName) hwalk fd s
  have hservices : ∀ (svcs : List ServiceDescriptor) (s : σ), svcs.foldl (rangeService fn) s =
      (svcs.flatMap fun svc => svc.fullName :: svc.methods.map (·.fullName)).foldl fn s := by
    intro svcs
    induction svcs with
    | nil => exact fun _ => rfl
    | cons svc svcs ih =>
      intro s
      rw [List.foldl_cons, ih, List.flatMap_cons, List.foldl_append, List.foldl_cons, List.foldl_map, rangeService]
  rw [rangeFileDescriptors, Client.rangeFileDescriptors, List.foldl_append, List.foldl_map, ← htypes, hservices,
    rangeNestedDescriptors_eq]

end

/-! ## Agreement -/

theorem foldlM_recording {ε : Type} (ts calls : List TypeDescriptor) :
    ts.foldlM (recording : TypeMethods (List TypeDescriptor) ε).call calls = .ok (calls ++ ts) := by
  induction ts generalizing calls with
  | nil => rw [List.append_nil]; rfl
  | cons t ts ih =>
    have hcall : (recording : TypeMethods (List TypeDescriptor) ε).call calls t = .ok (calls ++ [t]) := by
      cases t <;> rfl
    rw [List.foldlM_cons, hcall]
    change ts.foldlM _ (calls ++ [t]) = _
    rw [ih, ← List.append_cons]

theorem foldlM_updating (ts : List TypeDescriptor) (types : NamespacedTypes) :
    ts.foldlM updating.call types = .ok (ts.foldl updateTypeOf types) := by
  induction ts generalizing types with
  | nil => rfl
  | cons t ts ih =>
    have hcall : updating.call types t = .ok (updateTypeOf types t) := by cases t <;> rfl
    rw [List.foldlM_cons, hcall, List.foldl_cons]
    exact ih _

theorem foldl_collectType (ts : List TypeDescriptor) (fp : AggFingerprint) : ts.foldl collectType fp =
    { fp with
      messages := fp.messages ++ namesOfKind .message ts
      enums := fp.enums ++ namesOfKind .enum ts
      extensions := fp.extensions ++ namesOfKind .extension ts } := by
  induction ts generalizing fp with
  | nil => simp [namesOfKind]
  | cons t ts ih =>
    rw [List.foldl_cons, ih]
    cases t <;> simp [collectType, collectEnum, collectExtension, namesOfKind, TypeDescriptor.kind,
      TypeDescriptor.fullName]

/-- The walk of the fingerprint is the one that `compileSchema` was given. -/
theorem collect_eq (fp : AggFingerprint) (fd : FileDescriptor) : collect fp fd = fp.collect fd := by
  rw [collect_eq_foldl, foldl_collectType, AggFingerprint.collect]

theorem foldl_concat (names visited : List FullName) :
    names.foldl (fun l n => l ++ [n]) visited = visited ++ names := by
  induction names generalizing visited with
  | nil => rw [List.foldl_nil, List.append_nil]
  | cons n names ih => rw [List.foldl_cons, ih, List.append_assoc, List.singleton_append]

def collected (fp : AggFingerprint) : TypeKind → List FullName
  | .message => fp.messages
  | .enum => fp.enums
  | .extension => fp.extensions

/-- What the four walks have in common at a file. -/
structure Agree (fd : FileDescriptor) (registered updated : List TypeDescriptor) (fp : AggFingerprint)
    (visited : List FullName) : Prop where
  /-- The calls that are recorded are made with any methods, up to the first that fails. -/
  register : ∀ {σ ε : Type} (on : TypeMethods σ ε) s, registerFileTypes on s fd = registered.foldlM on.call s
  update : ∀ {σ ε : Type} (on : TypeMethods σ ε) s, registerFileTypesUpdate on s fd = updated.foldlM on.call s
  updated_perm : ∀ kind, (namesOfKind kind registered).Perm (namesOfKind kind updated)
  collected_perm : ∀ kind, (namesOfKind kind registered).Perm (collected fp kind)
  visited_perm : visited.Perm (fp.messages ++ fp.enums ++ fp.extensions ++
    fd.services.flatMap fun svc => svc.fullName :: svc.methods.map (·.fullName))
  /-- What `compileSchema`, `applyToAggregate` and `buildNameIndex` do with the file. -/
  compiling : ∀ types, Client.registerFileTypes types fd = registerFileTypes registering types fd
  applying : ∀ types, .ok (Client.registerFileTypesUpdate types fd) = registerFileTypesUpdate updating types fd
  collecting : ∀ fp, AggFingerprint.collect fp fd = collect fp fd
  indexing : ∀ {σ : Type} (fn : σ → FullName → σ) s,
    (Client.rangeFileDescriptors fd).foldl fn s = rangeFileDescriptors fn s fd

theorem agree (fd : FileDescriptor) : Agree fd fd.types fd.types (collect ⟨[], [], [], []⟩ fd)
    (Client.rangeFileDescriptors fd) where
  register on s := registerFileTypes_eq on s fd
  update on s := registerFileTypesUpdate_eq on s fd
  updated_perm kind := .refl _
  collected_perm kind := by
    rw [collect_eq]
    cases kind <;> exact .refl _
  visited_perm := by
    rw [collect_eq]
    have hkinds := (perm_kinds fd.types).map (·.fullName)
    rw [List.map_append, List.map_append, ← List.append_assoc] at hkinds
    exact hkinds.append_right _
  compiling types := by
    have hcall : registerTypeOf = registering.call := by
      funext types t
      cases t <;> rfl
    rw [registerFileTypes_eq, Client.registerFileTypes, hcall]
  applying types := by
    rw [registerFileTypesUpdate_eq, Client.registerFileTypesUpdate]
    exact (foldlM_updating fd.types types).symm
  collecting fp := (collect_eq fp fd).symm
  indexing fn s := (rangeFileDescriptors_eq fn s fd).symm

end ProtoRegistry.Client.Walks

/-! ## In and out again -/

namespace ProtoRegistry

namespace NamespacedFiles

variable {r r' : NamespacedFiles}

theorem numFiles_of_insert (h : r.insertFileLocked f = .ok r') : r'.numFiles = r.numFiles + 1 := by
  obtain ⟨fs, -, rfl⟩ := insertFileLocked_eq_ok_iff.mp h
  exact congrArg (· + 1) (sameFiles_enter r f fs).numFiles

theorem numFiles_of_unregister (h : r.unregisterFile p = .ok r') : r'.numFiles = r.numFiles - 1 := by
  obtain ⟨old, -, rfl⟩ := unregisterFile_eq_ok_iff.mp h
  have hnames := sameFiles_foldl (fun r n => (⟨rfl, rfl, rfl⟩ : SameFiles r (r.deleteName n))) r old.names
  exact congrArg (· - 1) (hnames.trans (sameFiles_leavePackage _ old.pkg p)).numFiles

/-- The registry is as `NewNamespacedFiles` makes it: only the root package is left. -/
structure Empty (r : NamespacedFiles) : Prop where
  filesByPath : r.filesByPath.keys = []
  fileDescs : r.fileDescs.keys = []
  descsByName : ∀ n, r.descsByName.get n = new.descsByName.get n
  numFiles : r.numFiles = 0

theorem Holds.empty (h : Holds r []) (hnum : r.numFiles = 0) : r.Empty where
  filesByPath := h.stores.keys
  fileDescs := by
    rw [List.eq_nil_iff_forall_not_mem]
    intro p hp
    obtain ⟨rec, hrec⟩ := Option.isSome_iff_exists.mp ((r.fileDescs.mem_keys p).mp hp)
    obtain ⟨f, hf, -⟩ := (h.records p rec).mp hrec
    cases hf
  descsByName n := by
    have hdesc : r.descriptorAt n = none := h.descriptorAt_eq_none fun g hg => by cases hg
    by_cases hn : n = []
    · obtain ⟨fs, hfs⟩ := Option.isSome_iff_exists.mp h.root
      obtain rfl := List.perm_nil.mp (h.packages [] fs hfs)
      rw [hn, packageAt_eq_some.mp hfs]
      rfl
    · have hpkg : r.packageAt n = none := by
        rw [← Option.not_isSome_iff_eq_none]
        intro hsome
        obtain hnil | ⟨f, hf, -⟩ := h.package_mem hsome
        · exact hn hnil
        · cases hf
      rw [get_eq_none_iff.mpr ⟨hdesc, hpkg⟩]
      exact (Dict.get_set_of_ne Dict.empty (NamedEntry.package []) hn).symm
  numFiles := hnum

end NamespacedFiles

namespace NamespacedTypes
open Client

variable {r r' : NamespacedTypes}

/-- No message has an empty map of extensions. -/
def Tight (r : NamespacedTypes) : Prop := ∀ m exts, r.extensionsByMessage.get m = some exts → exts.keys ≠ []

theorem Tight.of_eq (h : r.Tight) (heq : r'.extensionsByMessage = r.extensionsByMessage) : r'.Tight := by
  rw [Tight, heq]
  exact h

theorem extensionsByMessage_count (r : NamespacedTypes) (kind : TypeKind) (k : Int) :
    (r.count kind k).extensionsByMessage = r.extensionsByMessage := by
  cases kind <;> rfl

theorem Tight.update (h : r.Tight) (t : TypeDescriptor) : (updateTypeOf r t).Tight := by
  have hplain : ∀ t, (r.updateType t).extensionsByMessage = r.extensionsByMessage := by
    intro t
    rw [updateType, setType]
    split
    · exact extensionsByMessage_count ..
    · rfl
  cases t with
  | message m => exact h.of_eq (hplain _)
  | enum e => exact h.of_eq (hplain _)
  | extension x =>
    intro m exts hget
    rw [updateTypeOf, updateExtension, setExtension, hplain, Dict.get_set] at hget
    split at hget
    · cases hget
      exact List.ne_nil_of_mem (Dict.mem_keys_of_get (Dict.get_set_self ..))
    · exact h m exts hget

theorem Tight.unregister {kind : TypeKind} (h : r.Tight) (hexec : unregisterOfKind r n kind = .ok r') : r'.Tight := by
  have hplain : ∀ kind, r.unregisterType kind n = .ok r' → r'.Tight := by
    intro kind hok
    rw [unregisterType] at hok
    split at hok
    · split at hok
      · cases hok
        exact h.of_eq (extensionsByMessage_count ..)
      · cases hok
    · cases hok
  cases kind with
  | message => exact hplain _ hexec
  | enum => exact hplain _ hexec
  | extension =>
    rw [unregisterOfKind, unregisterExtension] at hexec
    split at hexec
    · next x _ =>
      cases hexec
      refine Tight.of_eq (r := (r.deleteType n).deleteExtension x.containingMessage x.number) ?_
        (extensionsByMessage_count ..)
      rw [deleteExtension]
      split
      · exact h
      · next exts hexts =>
        intro m exts' hget
        dsimp only at hget
        split at hget
        · rw [Dict.get_delete] at hget
          split at hget
          · cases hget
          · exact h m exts' hget
        · next hne =>
          rw [Dict.get_set] at hget
          split at hget
          · cases hget
            simpa using hne
          · exact h m exts' hget
    · cases hexec

/-- The registry is as `NewNamespacedTypes` makes it. -/
structure Empty (r : NamespacedTypes) : Prop where
  typesByName : r.typesByName.keys = []
  extensionsByMessage : r.extensionsByMessage.keys = []
  num : ∀ kind, r.num kind = 0

theorem Holds.empty (h : Holds r []) (hcounts : r.Consistent) (htight : r.Tight) : r.Empty := by
  have hkeys : r.typesByName.keys = [] := by
    rw [List.eq_nil_iff_forall_not_mem]
    intro n hn
    rw [r.typesByName.mem_keys, h.names.eq_none_iff.mpr List.not_mem_nil] at hn
    cases hn
  refine ⟨hkeys, ?_, fun kind => ?_⟩
  · rw [List.eq_nil_iff_forall_not_mem]
    intro m hm
    obtain ⟨exts, hexts⟩ := Option.isSome_iff_exists.mp ((r.extensionsByMessage.mem_keys m).mp hm)
    apply htight m exts hexts
    rw [List.eq_nil_iff_forall_not_mem]
    intro k hk
    have hnone : r.extensionAt m k = none := (h.numbers.eq_none_iff (k := (m, k))).mpr List.not_mem_nil
    rw [extensionAt, hexts, Option.bind_some] at hnone
    rw [exts.mem_keys, hnone] at hk
    cases hk
  · rw [hcounts.counts, entries, Dict.values, hkeys]
    rfl

end NamespacedTypes

namespace Client

/-- The counts of the registries are right, and no map of extensions is empty. -/
structure Aggregate.Counts (agg : Aggregate) (k : Nat) : Prop where
  numFiles : agg.nsFiles.numFiles = k
  types : agg.nsTypes.Consistent
  tight : agg.nsTypes.Tight

theorem Aggregate.Counts.new : Aggregate.Counts ⟨.new, .new⟩ 0 := ⟨rfl, .new, fun m exts h => by cases h⟩

theorem Aggregate.Counts.apply {agg agg' : Aggregate} (h : agg.Counts files.length) (hheld : agg.Holds files)
    (hone : Aggregable (files ++ [f])) (happly : applyFile sc f agg = .ok agg') :
    agg'.Counts (files ++ [f]).length := by
  obtain ⟨l, hperm, hl⟩ := hheld.held
  rw [applyFile, NamespacedFiles.updateFile, hl.fileDescs_eq_none fun hmem =>
    hone.path_not_mem ((hperm.map _).mem_iff.mp hmem)] at happly
  split at happly
  · cases happly
  · next r hr =>
    cases happly
    refine ⟨?_, ?_, ?_⟩
    · rw [NamespacedFiles.numFiles_of_insert hr, h.numFiles, List.length_append, List.length_singleton]
      rfl
    · -- the updates are those that registering would make
      exact foldlM_inv (J := fun _ r => NamespacedTypes.Consistent r) h.types (fun _ _ _ _ _ hr => hr.register)
        (hheld.types.register hone.distinct_concat)
    · exact List.foldlRecOn _ _ h.tight fun r hr t _ => hr.update t

theorem applyToAggregate_spec (ss : SchemaSnapshot) {order : List FileDescriptor} (hagg : Aggregable order) :
    StateE.Triple (fun agg : Aggregate => agg.Holds [] ∧ agg.Counts 0) (applyToAggregate ss order)
      (fun _ agg => agg.Holds order ∧ agg.Counts order.length) fun _ _ => False := by
  refine StateE.Triple.forM (J := fun done _ (agg : Aggregate) => agg.Holds done ∧ agg.Counts done.length) ?_
  intro done f rest hl agg hdone
  have hone : Aggregable (done ++ [f]) := by
    apply hagg.sublist
    rw [hl]
    exact (List.Sublist.refl _).append (List.singleton_sublist.mpr (List.mem_cons_self ..))
  obtain ⟨agg', happly, hheld⟩ := applyFile_holds ss.schemaID hone hdone.1
  rw [StateE.exec_change, happly]
  exact ⟨hheld, hdone.2.apply hdone.1 hone happly⟩

theorem unregisterNames_counts (sc : String) (kind : TypeKind) (names : List FullName) (k : Nat) :
    StateE.Triple (fun agg : Aggregate => agg.Counts k)
      (names.forM fun name => StateE.change (unregisterName sc kind name)) (fun _ agg => agg.Counts k)
      fun _ _ => True := by
  refine StateE.Triple.forM (J := fun _ _ (agg : Aggregate) => agg.Counts k) fun _ name _ _ =>
    StateE.Triple.change (fun agg agg' h hstep => ?_) fun _ _ _ _ => trivial
  rw [unregisterName] at hstep
  split at hstep
  · cases hstep
  · next types htypes =>
    cases hstep
    exact ⟨h.numFiles, h.types.unregister htypes, h.tight.unregister htypes⟩

theorem unregisterFiles_counts (sc : String) (paths : List String) :
    StateE.Triple (fun agg : Aggregate => agg.Counts paths.length)
      (paths.forM fun path => StateE.change (unregisterFile sc path)) (fun _ agg => agg.Counts 0)
      fun _ _ => True := by
  refine StateE.Triple.forM (J := fun _ rest (agg : Aggregate) => agg.Counts rest.length) fun _ path _ _ =>
    StateE.Triple.change (fun agg agg' h hstep => ?_) fun _ _ _ _ => trivial
  rw [unregisterFile] at hstep
  split at hstep
  · cases hstep
  · next files hfiles =>
    cases hstep
    have hnum := h.numFiles
    rw [List.length_cons, Nat.cast_add] at hnum
    refine ⟨?_, h.types, h.tight⟩
    rw [NamespacedFiles.numFiles_of_unregister hfiles, hnum]
    exact Int.add_sub_cancel ..

theorem removeFromAggregate_counts (ss : SchemaSnapshot) :
    StateE.Triple (fun agg : Aggregate => agg.Counts ss.aggFingerprint.filePaths.length) (removeFromAggregate ss)
      (fun _ agg => agg.Counts 0) fun _ _ => True := by
  refine (unregisterFiles_counts ss.schemaID _).bind fun _ => ?_
  refine (unregisterNames_counts ss.schemaID .message _ 0).bind fun _ => ?_
  refine (unregisterNames_counts ss.schemaID .enum _ 0).bind fun _ => ?_
  exact unregisterNames_counts ss.schemaID .extension _ 0

theorem removeFromAggregate_spec {files order : List FileDescriptor} {ss : SchemaSnapshot}
    (hcompiled : ss.Compiled files)
    (hagg : Aggregable files) (hperm : order.Perm files) :
    StateE.Triple (fun agg : Aggregate => agg.Holds order ∧ agg.Counts order.length) (removeFromAggregate ss)
      (fun _ agg => agg.nsFiles.Empty ∧ agg.nsTypes.Empty) fun _ _ => False := by
  have hpaths : ss.aggFingerprint.filePaths.length = order.length := by
    rw [hcompiled.fingerprint, AggFingerprint.ofFiles, List.length_map, hperm.length_eq]
  have hjoint : Aggregable (files ++ []) := by rwa [List.append_nil]
  have hboth := (removeFromAggregate_holds hcompiled hjoint).and (removeFromAggregate_counts ss)
  refine hboth.weaken (fun agg h => ⟨?_, hpaths ▸ h.2⟩) (fun _ agg h => ⟨?_, ?_⟩) fun _ _ h => h.1
  · rw [List.append_nil]
    exact h.1.perm hperm
  · obtain ⟨l, hl, hheld⟩ := h.1.held
    rw [List.perm_nil.mp hl] at hheld
    exact hheld.empty h.2.numFiles
  · exact h.1.types.empty h.2.types h.2.tight

namespace Walks

/-- **The walks agree.** At every file the two walks over the types make calls with the same names, kind by kind,
which are the names of the fingerprint, and the visited names are these, those of the services and those of
their methods. So a schema that compiled can be applied to empty registries and taken out again without an
error, and they are empty once more, in whatever order its files are visited. -/
theorem walks_agree :
    (∀ fd, ∃ registered updated : List TypeDescriptor,
      registerFileTypes (recording : TypeMethods _ RegistryErr) [] fd = .ok registered ∧
        registerFileTypesUpdate (recording : TypeMethods _ RegistryErr) [] fd = .ok updated ∧
        Agree fd registered updated (collect ⟨[], [], [], []⟩ fd)
          (rangeFileDescriptors (fun visited n => visited ++ [n]) [] fd)) ∧
      ∀ {env : External} {ns sc : String} {v : Nat} {fdset files : List FileDescriptor} {ss : SchemaSnapshot},
        env.newFiles fdset = .ok files → (∀ f ∈ files, f.WellNamed) → compileSchema env ns sc v fdset = .ok ss →
          ∀ order, order.Perm ss.files.rangeFiles → ∃ agg agg' : Aggregate,
            (applyToAggregate ss order).exec ⟨.new, .new⟩ = (.ok (), agg) ∧
              (removeFromAggregate ss).exec agg = (.ok (), agg') ∧ agg'.nsFiles.Empty ∧ agg'.nsTypes.Empty := by
  constructor
  · intro fd
    refine ⟨fd.types, fd.types, ?_, ?_, ?_⟩
    · rw [registerFileTypes_eq, foldlM_recording, List.nil_append]
    · rw [registerFileTypesUpdate_eq, foldlM_recording, List.nil_append]
    · rw [rangeFileDescriptors_eq, foldl_concat, List.nil_append]
      exact agree fd
  · intro env ns sc v fdset files ss hfiles hwell hss order hperm
    have hagg := (exists_compileSchema_iff hfiles hwell).mp ⟨ss, hss⟩
    obtain ⟨files', hfiles', hcompiled, -⟩ := compileSchema_eq_ok hss
    cases hfiles.symm.trans hfiles'
    rw [hcompiled.stores.rangeFiles] at hperm
    obtain ⟨_, agg, hexec, hagg'⟩ := (applyToAggregate_spec ss (hagg.perm hperm.symm)).total ⟨.new, .new⟩
    obtain ⟨_, agg', hexec', hempty⟩ := (removeFromAggregate_spec hcompiled hagg hperm).total hagg'
    exact ⟨agg, agg', hexec, hexec', hempty⟩

/-- Two files, one of them with an extension and a service, go in and out in the other order. -/
theorem walks_agree_extension :
    let fdset := [Sample.fileIn "a.proto" ["q"] "M", Sample.rpcFile false [Sample.extension]]
    ∃ ss agg agg', compileSchema Sample.env "n" "s" 1 fdset = .ok ss ∧
      (applyToAggregate ss fdset.reverse).exec ⟨.new, .new⟩ = (.ok (), agg) ∧ agg.nsFiles.numFiles = 2 ∧
      (removeFromAggregate ss).exec agg = (.ok (), agg') ∧ agg'.nsFiles.Empty ∧ agg'.nsTypes.Empty := by
  intro fdset
  have hwell : ∀ f ∈ fdset, f.WellNamed := by decide
  obtain ⟨ss, hss, hrange, hcount⟩ : ∃ ss, compileSchema Sample.env "n" "s" 1 fdset = .ok ss ∧
      ss.files.rangeFiles = fdset ∧ ((applyToAggregate ss fdset.reverse).exec ⟨.new, .new⟩).2.nsFiles.numFiles = 2 :=
    ⟨_, rfl, rfl, rfl⟩
  obtain ⟨agg, agg', hexec, hexec', hempty⟩ :=
    walks_agree.2 rfl hwell hss fdset.reverse (by rw [hrange]; exact fdset.reverse_perm)
  rw [hexec] at hcount
  exact ⟨ss, agg, agg', hss, hexec, hcount, hexec', hempty⟩

end Walks

end Client

end ProtoRegistry
