import ProtoRegistry.Verify.CacheDirectory

/-!
# Processes that share a cache directory

Any number of processes may write snapshots to a cache directory and load from it at the same time. No file that is
listed is ever removed, and a file of a schema is named after its version. So a load sees, for each namespace, one
snapshot that was written, as a whole.
-/

namespace ProtoRegistry.Client
open Prog

section
variable {ext : CacheExternal} {W : String → List String → NsSnapshot → Prop}
  {sets : String → String → Nat → List FileDescriptor} {h : FsHistory} {α : Type}

/-! ## Reading -/

/-- A read has failed, otherwise than by a file of a schema not being there. -/
def ReadFailed (h : FsHistory) : Prop :=
  ∃ path e, ⟨.readFile path, .error e⟩ ∈ h ∧ (e = .notExist → ∃ ns, path = .manifest ns)

theorem Follows.readFile {path : CachePath} {f : Bytes → CacheM α} {Q : Except ClientErr α → FsHistory → Prop}
    (text : String) (herr : ∀ err e, Assumes ext W sets h (.readFile path) (.error e) →
      Q (.error err) (⟨.readFile path, .error e⟩ :: h))
    (hok : ∀ data, Fits ext W sets path data → Follows ext W sets (f data) (⟨.readFile path, .ok data⟩ :: h) Q) :
    Follows ext W sets (Client.inContext text (fs (.readFile path)) >>= f) h Q := by
  refine ⟨trivial, fun res hres => ?_⟩
  cases res with
  | error e => exact herr _ e hres
  | ok data => exact hok data (by cases path <;> exact hres)

theorem readManifestFile_follows (hext : ext.Lawful W sets) (ns : String) :
    Follows ext W sets (readManifestFile ext ns) h (Ends (fun man h' => ∃ chain snap, W ns chain snap ∧
      man = cacheManifest ns chain snap ∧ ⟨.readFile (.manifest ns), .ok (ext.marshalManifest man)⟩ ∈ h')
        fun _ h' => ReadFailed h') := by
  refine Follows.readFile _ (fun _ e _ => ⟨_, e, List.mem_cons_self .., fun _ => ⟨ns, rfl⟩⟩) ?_
  rintro _ ⟨chain, snap, hW, rfl⟩
  rw [hext.manifest hW]
  refine Meets.bind (R := fun res h' => res = .ok (cacheManifest ns chain snap) ∧ h' = _) (Meets.liftExcept ⟨rfl, rfl⟩)
    (by rintro _ _ ⟨⟨⟩, -⟩) ?_
  rintro _ _ ⟨⟨⟩, rfl⟩
  simp only [cacheManifest, ne_eq, not_true_eq_false, if_false]
  exact Meets.pure (by exact ⟨chain, snap, hW, rfl, List.mem_cons_self ..⟩)

theorem cacheFile_inj_version (h : cacheFile sc v = cacheFile sc w) : v = w := by
  have hlist := congrArg String.toList h
  rw [toList_cacheFile, toList_cacheFile] at hlist
  have hdigits := List.append_cancel_right (List.cons_inj_right _ |>.mp (List.append_cancel_left hlist))
  rw [Nat.toString_eq_ofList_toDigits, Nat.toString_eq_ofList_toDigits, String.toList_ofList,
    String.toList_ofList] at hdigits
  have hnat := congrArg (Nat.ofDigitChars 10 · 0) hdigits
  rwa [Nat.ofDigitChars_toDigits (by decide) le_rfl, Nat.ofDigitChars_toDigits (by decide) le_rfl] at hnat

section
variable (hext : ext.Lawful W sets) {ns : String} {snap : NsSnapshot}
  (hsnap : ∀ sc ss, snap.schemas.get sc = some ss → idPattern sc ∧ ss.rawDescriptorSet = sets ns sc ss.version)
include hext hsnap

/-- A file of a schema that the manifest lists is there, and is that of the snapshot. -/
theorem loadSchemaFile_follows (hread : ⟨.readFile (.manifest ns), .ok data⟩ ∈ h)
    (hdata : Lists ext data (cacheFile e.1 e.2.version)) (he : e ∈ snap.cached) (start : Resolver) (hns : start.ns = ns)
    (s : NsSnapshot) :
    Follows ext W sets (loadSchemaFile ext env start s ⟨e.1, e.2.version, cacheFile e.1 e.2.version⟩) h fun res h' =>
      h <:+ h' ∧ ((∀ (disk : Disk) chain, disk.Has ns chain snap →
        res = loadCachedSchema env disk start s ⟨e.1, e.2.version, cacheFile e.1 e.2.version⟩) ∨
          (∃ e, res = .error e) ∧ ReadFailed h') := by
  obtain ⟨hid, hset⟩ := hsnap e.1 e.2 (NsSnapshot.mem_cached.mp he).1
  subst hns
  unfold loadSchemaFile loadCachedSchema
  split
  · exact Meets.pure ⟨List.suffix_rfl, .inl fun _ _ _ => rfl⟩
  · split
    · exact Meets.throw ⟨List.suffix_rfl, .inl fun _ _ _ => rfl⟩
    · refine Follows.readFile _ (fun err e' hassumes => ⟨List.suffix_cons _ _,
        .inr ⟨⟨err, rfl⟩, _, e', List.mem_cons_self .., ?_⟩⟩) ?_
      · rintro rfl
        exact absurd hdata (hassumes data hread)
      · rintro _ ⟨sc, v, hsc, hfile, rfl⟩
        obtain rfl := cacheFile_inj hid hsc hfile
        obtain rfl := cacheFile_inj_version hfile
        rw [hext.set, ← hset]
        refine Meets.bind (R := fun res h' => res = .ok e.2.rawDescriptorSet ∧ h' = _) (Meets.liftExcept ⟨rfl, rfl⟩)
          (by rintro _ _ ⟨⟨⟩, -⟩) ?_
        rintro _ _ ⟨⟨⟩, rfl⟩
        refine Meets.mono (R := fun res h' => h <:+ h' ∧ res = (do
          let ss ← (compileSchema env start.ns e.1 e.2.version e.2.rawDescriptorSet).mapError
            (·.context ("compile cached schema " ++ (start.ns ++ "/schemas/" ++ cacheFile e.1 e.2.version)))
          return s.put e.1 ss)) ?_ ?_
        · dsimp only
          generalize (compileSchema env start.ns e.1 e.2.version e.2.rawDescriptorSet).mapError _ = compiled
          cases compiled with
          | error err => exact Meets.throw ⟨List.suffix_cons _ _, rfl⟩
          | ok ss => exact Meets.pure ⟨List.suffix_cons _ _, rfl⟩
        · rintro res h' ⟨hh, hres⟩
          refine ⟨hh, .inl fun disk chain hdisk => ?_⟩
          rw [hdisk.schemas e he]
          exact hres

/-- The schemas are loaded as from a directory that has the snapshot. -/
theorem loadSchemaFiles_follows {chain : List String} (hW : W ns chain snap)
    (hread : ⟨.readFile (.manifest ns), .ok (ext.marshalManifest (cacheManifest ns chain snap))⟩ ∈ h)
    (start : Resolver) (hns : start.ns = ns) :
    Follows ext W sets ((cacheManifest ns chain snap).schemas.foldlM (loadSchemaFile ext env start) .new) h
      fun res h' =>
      (∀ (disk : Disk) chain', disk.Has ns chain' snap →
        res = (cacheManifest ns chain snap).schemas.foldlM (loadCachedSchema env disk start) .new) ∨
          (∃ e, res = .error e) ∧ ReadFailed h' := by
  refine (Meets.foldlM (J := fun done res h' => h <:+ h' ∧ ((∀ (disk : Disk) chain', disk.Has ns chain' snap →
    res = done.foldlM (loadCachedSchema env disk start) .new) ∨ (∃ e, res = .error e) ∧ ReadFailed h')) ?_ ?_
      ⟨List.suffix_rfl, .inl fun _ _ _ => rfl⟩).mono fun _ _ hres => hres.2
  · rintro done rest err h' ⟨hh, hres⟩
    refine ⟨hh, hres.imp_left fun hres disk chain' hdisk => ?_⟩
    rw [List.foldlM_append, ← hres disk chain' hdisk]
    rfl
  · rintro done sm rest s h' hl ⟨hh, hres⟩
    have hsm : sm ∈ (cacheManifest ns chain snap).schemas := hl ▸ List.mem_append_right _ (List.mem_cons_self ..)
    obtain ⟨e, he, rfl⟩ := List.mem_map.mp hsm
    refine (loadSchemaFile_follows hext hsnap (hh.subset hread) ⟨_, hext.manifest hW, _, hsm, rfl⟩
      he start hns s).mono ?_
    rintro res' h'' ⟨hh', hres'⟩
    refine ⟨hh.trans hh', hres'.imp_left fun hres' disk chain' hdisk => ?_⟩
    obtain hres | ⟨⟨e, ⟨⟩⟩, -⟩ := hres
    rw [List.foldlM_append, ← hres disk chain' hdisk, hres' disk chain' hdisk]
    exact (bind_pure _).symm

end

def startOf (ns : String) (cfg : Config) (parent : Option Resolver) : Resolver where
  ns
  cfg := match parent with
    | none => cfg
    | some p => { cfg with parentFiles := p.files, parentTypes := p.types }
  snapshot := none
  nsFiles := .new
  nsTypes := .new
  ancestors := []
  fromCache := true

/-- What is done with the schemas of a namespace when all of them are loaded. -/
def finishLoad (r : Resolver) (snap : NsSnapshot) : Except ClientErr Resolver := do
  let snap ← snap.buildNameIndex
  match (applyAll snap).exec r.toAggregate with
  | (.error e, _) => .error e
  | (.ok (), agg) => .ok { r with toAggregate := agg, snapshot := some snap }

theorem loadSingleNamespaceFromCache_of_has {disk : Disk} {chain : List String} (hdisk : disk.Has ns chain snap)
    (cfg : Config) (parent : Option Resolver) :
    loadSingleNamespaceFromCache env disk ns cfg parent = (cacheManifest ns chain snap).schemas.foldlM
      (loadCachedSchema env disk (startOf ns cfg parent)) .new >>= finishLoad (startOf ns cfg parent) := by
  have hbind : loadSingleNamespaceFromCache env disk ns cfg parent = (readManifest disk ns >>= fun man =>
      man.schemas.foldlM (loadCachedSchema env disk (startOf ns cfg parent)) .new >>=
        finishLoad (startOf ns cfg parent)) := by
    cases parent <;> rfl
  rw [hbind, readManifest_eq_ok hdisk]
  rfl

theorem loadNamespaceFiles_eq (ns : String) (cfg : Config) (parent : Option Resolver) :
    loadNamespaceFiles ext env ns cfg parent = (do
      let man ← readManifestFile ext ns
      let snap ← man.schemas.foldlM (loadSchemaFile ext env (startOf ns cfg parent)) .new
      liftExcept (finishLoad (startOf ns cfg parent) snap)) := by
  unfold loadNamespaceFiles finishLoad
  refine congrArg (readManifestFile ext ns >>= ·) (funext fun man => ?_)
  refine congrArg (man.schemas.foldlM _ _ >>= ·) (funext fun snap => ?_)
  cases snap.buildNameIndex with
  | error e => rfl
  | ok s =>
    have hbind : ∀ f : NsSnapshot → Except ClientErr Resolver,
        ((Except.ok s : Except ClientErr NsSnapshot) >>= f) = f s :=
      fun _ => rfl
    refine (pure_bind s _).trans ?_
    rw [hbind]
    dsimp only [startOf]
    rcases (applyAll s).exec ⟨.new, .new⟩ with ⟨_ | _, agg⟩ <;> rfl

/-- **A namespace is loaded as a whole**: as from a directory that has one snapshot that was written, unless a read
fails. -/
theorem loadNamespaceFiles_follows (hext : ext.Lawful W sets)
    (hsets : ∀ ns chain snap, W ns chain snap → ∀ sc ss, snap.schemas.get sc = some ss →
      idPattern sc ∧ ss.rawDescriptorSet = sets ns sc ss.version)
    (ns : String) (cfg : Config) (parent : Option Resolver) :
    Follows ext W sets (loadNamespaceFiles ext env ns cfg parent) h fun res h' =>
      (∃ chain snap, W ns chain snap ∧ ∀ (disk : Disk) chain', disk.Has ns chain' snap →
        res = loadSingleNamespaceFromCache env disk ns cfg parent) ∨ (∃ e, res = .error e) ∧ ReadFailed h' := by
  rw [loadNamespaceFiles_eq]
  refine Meets.bind (readManifestFile_follows hext ns) (fun e h' hfail => .inr ⟨⟨e, rfl⟩, hfail⟩) ?_
  rintro _ h₁ ⟨chain, snap, hW, rfl, hread⟩
  refine Meets.bind (loadSchemaFiles_follows hext (hsets _ _ _ hW) hW hread _ rfl) ?_ ?_
  · rintro e h' (hres | ⟨-, hfail⟩)
    · refine .inl ⟨chain, snap, hW, fun disk chain' hdisk => ?_⟩
      rw [loadSingleNamespaceFromCache_of_has hdisk]
      exact congrArg (· >>= finishLoad (startOf ns cfg parent)) (hres disk chain' hdisk)
    · exact .inr ⟨⟨e, rfl⟩, hfail⟩
  · rintro s h' (hres | ⟨⟨e, ⟨⟩⟩, -⟩)
    refine Meets.liftExcept (.inl ⟨chain, snap, hW, fun disk chain' hdisk => ?_⟩)
    rw [loadSingleNamespaceFromCache_of_has hdisk]
    exact congrArg (· >>= finishLoad (startOf ns cfg parent)) (hres disk chain' hdisk)

/-! ## Loading a chain -/

theorem Disk.has_write (disk : Disk) (chain : List String)
    (hsnap : ∀ sc ss, snap.schemas.get sc = some ss → idPattern sc) : (disk.write ns chain snap).Has ns chain snap := by
  refine ⟨by rw [manifests_write, if_pos rfl], fun e he => ?_⟩
  have hfold : ∀ (l : List (String × SchemaSnapshot)) (disk : Disk), (l.foldl (·.writeSchema ns) disk).schemas =
      l.foldl (fun d e => d.set (ns, cacheFile e.1 e.2.version) e.2.rawDescriptorSet) disk.schemas := by
    intro l
    induction l with
    | nil => exact fun _ => rfl
    | cons e l ih => exact fun disk => ih (disk.writeSchema ns e)
  change (snap.cached.foldl (·.writeSchema ns) disk).schemas.get _ = _
  rw [hfold, Dict.get_foldl_set]
  -- the last schema that was written under this name is the one itself
  cases hfind : snap.cached.reverse.find? fun e' => (ns, cacheFile e'.1 e'.2.version) =
    (ns, cacheFile e.1 e.2.version) with
  | none =>
    have hnot := List.find?_eq_none.mp hfind e (List.mem_reverse.mpr he)
    exact absurd (decide_eq_true rfl) hnot
  | some e' =>
    have he' := List.mem_reverse.mp (List.mem_of_find?_eq_some hfind)
    have hkey := List.find?_some hfind
    simp only [decide_eq_true_eq, Prod.mk.injEq, true_and] at hkey
    have hget := (NsSnapshot.mem_cached.mp he).1
    have hget' := (NsSnapshot.mem_cached.mp he').1
    have hid := cacheFile_inj (hsnap _ _ hget') (hsnap _ _ hget) hkey
    rw [hid, hget] at hget'
    rw [Option.map_some, Option.some_or, ← Option.some.inj hget']

theorem exists_disk (l : List String) (pick : String → List String × NsSnapshot)
    (hpick : ∀ m ∈ l, ∀ sc ss, (pick m).2.schemas.get sc = some ss → idPattern sc) :
    ∃ disk : Disk, (∀ m ∈ l, disk.Has m (pick m).1 (pick m).2) ∧ ∀ m man, disk.manifests.get m = some man → m ∈ l := by
  induction l with
  | nil => exact ⟨{}, by simp, by rintro _ _ ⟨⟩⟩
  | cons n l ih =>
    rw [List.forall_mem_cons] at hpick
    obtain ⟨disk, hhas, honly⟩ := ih hpick.2
    refine ⟨disk.write n (pick n).1 (pick n).2, fun m hm => ?_, fun m man hman => ?_⟩
    · by_cases hmn : m = n
      · subst hmn
        exact disk.has_write _ hpick.1
      · have hm := (List.mem_cons.mp hm).resolve_left hmn
        exact (hhas m hm).of_sameAt (sameAt_write disk _ _ hmn)
    · rw [manifests_write] at hman
      split at hman
      · next hmn => exact hmn ▸ List.mem_cons_self ..
      · exact List.mem_cons_of_mem _ (honly m man hman)

section
variable (hext : ext.Lawful W sets)
  (hsets : ∀ ns chain snap, W ns chain snap → ∀ sc ss, snap.schemas.get sc = some ss →
    idPattern sc ∧ ss.rawDescriptorSet = sets ns sc ss.version)
include hext hsets

theorem loadAncestorFiles_follows {l : List String} (hnd : l.Nodup) (cfg : Config) :
    Follows ext W sets (l.foldlM (loadAncestorFiles ext env cfg) []) h fun res h' =>
      (∃ (ms : List String) (pick : String → List String × NsSnapshot), (∀ m ∈ ms, m ∈ l ∧ W m (pick m).1 (pick m).2) ∧
        ∀ disk : Disk, (∀ m ∈ ms, disk.Has m (pick m).1 (pick m).2) →
          res = l.foldlM (loadCachedAncestor env disk cfg) []) ∨ (∃ e, res = .error e) ∧ ReadFailed h' := by
  refine Meets.foldlM (J := fun done res h' =>
    (∃ (ms : List String) (pick : String → List String × NsSnapshot), (∀ m ∈ ms, m ∈ done ∧ W m (pick m).1 (pick m).2) ∧
      ∀ disk : Disk, (∀ m ∈ ms, disk.Has m (pick m).1 (pick m).2) →
        res = done.foldlM (loadCachedAncestor env disk cfg) []) ∨ (∃ e, res = .error e) ∧ ReadFailed h') ?_ ?_
    (.inl ⟨[], fun _ => ([], .new), by simp, fun _ _ => rfl⟩)
  · rintro done rest err h' (⟨ms, pick, hms, hres⟩ | hfail)
    · refine .inl ⟨ms, pick, fun m hm => ⟨List.mem_append_left _ (hms m hm).1, (hms m hm).2⟩, fun disk hdisk => ?_⟩
      rw [List.foldlM_append, ← hres disk hdisk]
      rfl
    · exact .inr hfail
  · rintro done n rest ancestors h' hl (⟨ms, pick, hms, hres⟩ | ⟨⟨e, ⟨⟩⟩, -⟩)
    have hnew : n ∉ done := fun hmem => (List.nodup_append.mp (hl ▸ hnd)).2.2 n hmem n (List.mem_cons_self ..) rfl
    refine Meets.map (Follows.wrapContext _ ((loadNamespaceFiles_follows hext hsets n cfg _).mono ?_))
    have hne : ∀ m ∈ ms, m ≠ n := fun m hm heq => hnew (heq ▸ (hms m hm).1)
    rintro res' h'' (⟨chain, snap, hW, hres'⟩ | ⟨⟨e, rfl⟩, hfail⟩)
    · refine .inl ⟨ms ++ [n], Function.update pick n (chain, snap), fun m hm => ?_, fun disk hdisk => ?_⟩
      · obtain hm | hm := List.mem_append.mp hm
        · rw [Function.update_of_ne (hne m hm)]
          exact ⟨List.mem_append_left _ (hms m hm).1, (hms m hm).2⟩
        · rw [List.mem_singleton.mp hm, Function.update_self]
          exact ⟨List.mem_append_right _ (List.mem_singleton_self n), hW⟩
      · have hold : ∀ m ∈ ms, disk.Has m (pick m).1 (pick m).2 := by
          intro m hm
          have hhas := hdisk m (List.mem_append_left _ hm)
          rwa [Function.update_of_ne (hne m hm)] at hhas
        have hhas := hdisk n (List.mem_append_right _ (List.mem_singleton_self n))
        rw [Function.update_self] at hhas
        rw [List.foldlM_append, ← hres disk hold, hres' disk chain hhas]
        have hlast : loadCachedAncestor env disk cfg ancestors n = ((loadSingleNamespaceFromCache env disk n cfg
            ancestors.getLast?).mapError (·.context ("loading cached ancestor " ++ n))).map (ancestors ++ [·]) := by
          unfold loadCachedAncestor
          cases loadSingleNamespaceFromCache env disk n cfg ancestors.getLast? <;> rfl
        rw [← hlast]
        exact (bind_pure _).symm
    · exact .inr ⟨⟨_, rfl⟩, hfail⟩

end

/-- The directory has, for each namespace, one snapshot that was written. The chain of the first namespace may be
that of another one of its snapshots, since its manifest is read twice. -/
structure Disk.Whole (W : String → List String → NsSnapshot → Prop) (first : String) (disk : Disk) : Prop where
  namespaces : ∀ {n man}, disk.manifests.get n = some man → ∃ chain snap, W n chain snap ∧
    disk.Has n man.serverChain snap ∧ (n ≠ first → chain = man.serverChain)
  chain : ∀ {man}, disk.manifests.get first = some man → ∃ snap, W first man.serverChain snap

theorem loadFromCache_of_has {disk : Disk} {chain : List String} (hdisk : disk.Has ns chain snap) (cfg : Config) :
    loadFromCache env disk ns cfg = if !cfg.useServerChain || chain.length ≤ 1 then
      loadSingleNamespaceFromCache env disk ns cfg none
    else chain.tail.reverse.foldlM (loadCachedAncestor env disk cfg.forAncestors) [] >>= fun ancestors =>
      (loadSingleNamespaceFromCache env disk ns cfg ancestors.getLast?).map fun main => { main with ancestors } := by
  unfold loadFromCache
  rw [readManifest_eq_ok hdisk]
  change (if _ then _ else _) = _
  refine ite_congr rfl (fun _ => rfl) fun _ => ?_
  refine congrArg (chain.tail.reverse.foldlM _ [] >>= ·) (funext fun ancestors => ?_)
  cases loadSingleNamespaceFromCache env disk ns cfg ancestors.getLast? <;> rfl

section
variable (hsets : ∀ ns chain snap, W ns chain snap → ∀ sc ss, snap.schemas.get sc = some ss →
    idPattern sc ∧ ss.rawDescriptorSet = sets ns sc ss.version)
include hsets

theorem exists_whole {chainA chainB : List String} (hA : W ns chainA snapA) (hB : W ns chainB snapB)
    (ms : List String) (pick : String → List String × NsSnapshot) (hms : ∀ m ∈ ms, m ≠ ns ∧ W m (pick m).1 (pick m).2) :
    ∃ disk : Disk, disk.Whole W ns ∧ disk.Has ns chainA snapB ∧ ∀ m ∈ ms, disk.Has m (pick m).1 (pick m).2 := by
  let pick' := Function.update pick ns (chainA, snapB)
  have hself : pick' ns = (chainA, snapB) := Function.update_self ..
  have hother : ∀ m ∈ ms, pick' m = pick m := fun m hm => Function.update_of_ne (hms m hm).1 ..
  obtain ⟨disk, hhas, honly⟩ := exists_disk (ns :: ms) pick' (by
    rw [List.forall_mem_cons, hself]
    refine ⟨fun sc ss hss => (hsets _ _ _ hB sc ss hss).1, fun m hm sc ss hss => ?_⟩
    rw [hother m hm] at hss
    exact (hsets _ _ _ (hms m hm).2 sc ss hss).1)
  have hmain : disk.Has ns chainA snapB := by
    have hhas := hhas ns (List.mem_cons_self ..)
    rwa [hself] at hhas
  have hrest : ∀ m ∈ ms, disk.Has m (pick m).1 (pick m).2 := by
    intro m hm
    have hhas := hhas m (List.mem_cons_of_mem _ hm)
    rwa [hother m hm] at hhas
  refine ⟨disk, ⟨fun {n man} hman => ?_, fun {man} hman => ?_⟩, hmain, hrest⟩
  · obtain rfl | hn := List.mem_cons.mp (honly n man hman)
    · rw [hmain.manifest] at hman
      cases hman
      exact ⟨chainB, snapB, hB, hmain, fun hne => (hne rfl).elim⟩
    · rw [(hrest n hn).manifest] at hman
      cases hman
      exact ⟨_, _, (hms n hn).2, hrest n hn, fun _ => rfl⟩
  · rw [hmain.manifest] at hman
    cases hman
    exact ⟨snapA, hA⟩

variable (hext : ext.Lawful W sets) (hchain : ∀ ns chain snap, W ns chain snap → chain.tail.Nodup ∧ ns ∉ chain.tail)
include hext hchain

/-- **A chain is loaded from whole snapshots**, unless a read fails. -/
theorem loadFiles_follows (ns : String) (cfg : Config) :
    Follows ext W sets (loadFiles ext env ns cfg) h fun res h' =>
      (∃ disk : Disk, disk.Whole W ns ∧ res = loadFromCache env disk ns cfg) ∨ (∃ e, res = .error e) ∧
        ReadFailed h' := by
  refine Meets.bind (readManifestFile_follows hext ns) (fun e h' hfail => .inr ⟨⟨e, rfl⟩, hfail⟩) ?_
  rintro _ h₁ ⟨chain, snap, hW, rfl, -⟩
  change Meets _ _ (if _ then _ else _) _ _
  split
  · next hcond =>
    change (!cfg.useServerChain || decide (chain.length ≤ 1)) = true at hcond
    refine (loadNamespaceFiles_follows hext hsets ns cfg none).mono ?_
    rintro res h' (⟨chain', snap', hW', hres⟩ | hfail)
    · obtain ⟨disk, hwhole, hmain, -⟩ := exists_whole hsets hW hW' [] (fun _ => ([], .new)) (by simp)
      refine .inl ⟨disk, hwhole, ?_⟩
      rw [loadFromCache_of_has hmain, if_pos hcond]
      exact hres disk chain hmain
    · exact .inr hfail
  · next hcond =>
    change ¬ (!cfg.useServerChain || decide (chain.length ≤ 1)) = true at hcond
    obtain ⟨hnd, hnot⟩ := hchain ns chain snap hW
    have hfirst : ∀ m ∈ chain.tail.reverse, m ≠ ns := fun m hm heq => hnot (heq ▸ List.mem_reverse.mp hm)
    refine Meets.bind (loadAncestorFiles_follows hext hsets (List.nodup_reverse.mpr hnd) cfg.forAncestors) ?_ ?_
    · rintro e h' (⟨ms, pick, hms, hres⟩ | ⟨-, hfail⟩)
      · obtain ⟨disk, hwhole, hmain, hrest⟩ :=
          exists_whole hsets hW hW ms pick fun m hm => ⟨hfirst m (hms m hm).1, (hms m hm).2⟩
        refine .inl ⟨disk, hwhole, ?_⟩
        rw [loadFromCache_of_has hmain, if_neg hcond, ← hres disk hrest]
        rfl
      · exact .inr ⟨⟨e, rfl⟩, hfail⟩
    · rintro ancestors h' (⟨ms, pick, hms, hres⟩ | ⟨⟨e, ⟨⟩⟩, -⟩)
      refine Meets.map ((loadNamespaceFiles_follows hext hsets ns cfg _).mono ?_)
      rintro res h'' (⟨chain', snap', hW', hres'⟩ | ⟨⟨e, rfl⟩, hfail⟩)
      · obtain ⟨disk, hwhole, hmain, hrest⟩ :=
          exists_whole hsets hW hW' ms pick fun m hm => ⟨hfirst m (hms m hm).1, (hms m hm).2⟩
        refine .inl ⟨disk, hwhole, ?_⟩
        rw [loadFromCache_of_has hmain, if_neg hcond, ← hres disk hrest, hres' disk chain hmain]
        rfl
      · exact .inr ⟨⟨e, rfl⟩, hfail⟩

end

end

/-- What is written when the resolvers are persisted. -/
def WrittenBy (writers : List Resolver) (ns : String) (chain : List String) (snap : NsSnapshot) : Prop :=
  ∃ r ∈ writers, ∃ a ∈ r.parts, a.ns = ns ∧ a.recordedChain = chain ∧ a.snapshot = some snap

/-- **A shared cache is read as a whole.** Whatever processes persist resolvers and load from the cache at the same
time, however they are interleaved and wherever they fail or stop, a load that returns has loaded what it would from a
directory with one snapshot of each namespace, each of which was persisted, or one of its reads has failed otherwise
than by the file of a schema not being there. -/
theorem shared_cache_whole {ext : CacheExternal} {env : External} {writers : List Resolver}
    {readers : List (String × Config)} {sets : String → String → Nat → List FileDescriptor}
    (hext : ext.Lawful (WrittenBy writers) sets)
    (hsets : ∀ r ∈ writers, ∀ a ∈ r.parts, ∀ snap, a.snapshot = some snap → ∀ sc ss, snap.schemas.get sc = some ss →
      idPattern sc ∧ ss.rawDescriptorSet = sets a.ns sc ss.version)
    (hchains : ∀ r ∈ writers, ∀ a ∈ r.parts, a.recordedChain.Nodup)
    {p : Pool fsInterface (Except ClientErr (Option Resolver)) Fs}
    (h : Pool.Reach Fs.MayFail (fun _ _ _ _ => True) (cachePool ext env writers readers {}) p)
    (hreader : readers[k]? = some (ns, cfg)) (hret : p.threads[writers.length + k]? = some (.ret res)) :
    (∃ disk : Disk, disk.Whole (WrittenBy writers) ns ∧ res = (loadFromCache env disk ns cfg).map some) ∨
      (∃ e, res = .error e) ∧ ReadFailed (ownHistory p.trace (writers.length + k)) := by
  let W := WrittenBy writers
  have hsets' : ∀ ns chain snap, W ns chain snap → ∀ sc ss, snap.schemas.get sc = some ss →
      idPattern sc ∧ ss.rawDescriptorSet = sets ns sc ss.version := by
    rintro ns chain snap ⟨r, hr, a, ha, rfl, -, hsnap⟩
    exact hsets r hr a ha snap hsnap
  have hchains' : ∀ ns chain snap, W ns chain snap → chain.tail.Nodup ∧ ns ∉ chain.tail := by
    rintro ns chain snap ⟨r, hr, a, ha, rfl, rfl, -⟩
    have hnd := hchains r hr a ha
    unfold Resolver.recordedChain at hnd ⊢
    split
    · exact ⟨List.nodup_nil, List.not_mem_nil⟩
    · next hne =>
      rw [if_neg hne, List.nodup_cons] at hnd
      exact ⟨hnd.2, hnd.1⟩
  -- what a reader ends with, by its number
  let Q : Nat → Except ClientErr (Option Resolver) → FsHistory → Prop := fun i res h' =>
    ∀ k ns cfg, i = writers.length + k → readers[k]? = some (ns, cfg) →
      (∃ disk : Disk, disk.Whole W ns ∧ res = (loadFromCache env disk ns cfg).map some) ∨
        (∃ e, res = .error e) ∧ ReadFailed h'
  have hcontract : (cachePool ext env writers readers {}).UnderContract (fun _ => Guarantees ext W sets)
      (Assumes ext W sets) Q := by
    intro i t ht
    simp only [cachePool, List.getElem?_append, List.length_map] at ht
    split at ht
    · next hlt =>
      rw [List.getElem?_map, Option.map_eq_some_iff] at ht
      obtain ⟨r, hr, rfl⟩ := ht
      have hr := List.mem_of_getElem? hr
      have hwrites : ∀ a ∈ r.parts, a.Writes W sets := fun a ha =>
        ⟨fun hsnap => ⟨r, hr, a, ha, rfl, rfl, hsnap⟩, fun {snap} hsnap => hsets r hr a ha snap hsnap⟩
      refine Meets.mono (R := fun _ _ => True) ?_ fun res h' _ k ns cfg hk => absurd hlt (hk ▸ by omega)
      exact Meets.map (persistFiles_follows hext _ r hwrites)
    · next hge =>
      rw [List.getElem?_map, Option.map_eq_some_iff] at ht
      obtain ⟨⟨ns, cfg⟩, hload, rfl⟩ := ht
      refine Meets.map ((loadFiles_follows hsets' hext hchains' ns cfg).mono
        fun res h' hres k ns' cfg' hk hreader => ?_)
      have hk : i - writers.length = k := by omega
      rw [hk, hreader] at hload
      cases hload
      obtain ⟨disk, hwhole, rfl⟩ | ⟨⟨e, rfl⟩, hfail⟩ := hres
      · exact .inl ⟨disk, hwhole, rfl⟩
      · exact .inr ⟨⟨e, rfl⟩, hfail⟩
  have hp := Pool.Reach.contracts (J := Coherent ext W sets) hcontract coherent_empty
    (fun hcoherent hop hstep _ => hcoherent.mayFail hop hstep) h
  exact hp.1 _ _ hret k ns cfg rfl hreader

end ProtoRegistry.Client

namespace ProtoRegistry
open Client

namespace Sample

/-- A resolver of `n` with one schema, in the given version. -/
def cachedAt (version : Nat) : Client.Resolver where
  nsFiles := .new
  nsTypes := .new
  ns := "n"
  cfg := {}
  snapshot := (compileSchema env "n" "s" version [file "m.proto" [1]]).toOption.map (NsSnapshot.new.put "s")
  ancestors := []
  fromCache := false

/-- Manifests with one schema. All versions have the same descriptor set. -/
def cacheExternal : CacheExternal where
  marshalManifest man := man.schemas.map fun sm => UInt8.ofNat sm.version
  unmarshalManifest bytes := .ok ⟨1, "n", bytes.map fun b => ⟨"s", b.toNat, cacheFile "s" b.toNat⟩, []⟩
  marshalSet _ := [0]
  unmarshalSet _ := .ok [file "m.proto" [1]]

theorem snapshot_cachedAt (version : Nat) : ∃ ss, (cachedAt version).snapshot = some (NsSnapshot.new.put "s" ss) ∧
    ss.rawDescriptorSet = [file "m.proto" [1]] := ⟨_, rfl, rfl⟩

end Sample

/-- A load in the middle of the second of two writes reads the first. -/
theorem shared_cache_whole_stopped : ∃ p r, Pool.Reach Fs.MayFail (fun _ _ _ _ => True)
    (cachePool Sample.cacheExternal Sample.env [Sample.cachedAt 1, Sample.cachedAt 2] [("n", {})] {}) p ∧
      p.threads[2]? = some (.ret (.ok (some r))) ∧ ∃ disk : Disk,
        disk.Whole (WrittenBy [Sample.cachedAt 1, Sample.cachedAt 2]) "n" ∧
          loadFromCache Sample.env disk "n" {} = .ok r := by
  have hrun : ∃ p, Pool.Reach (Pool.Executes (fun _ _ => true) Fs.perform) (fun _ _ _ _ => True)
      (cachePool Sample.cacheExternal Sample.env [Sample.cachedAt 1, Sample.cachedAt 2] [("n", {})] {}) p ∧
      ∃ r, p.threads[2]? = some (.ret (.ok (some r))) :=
    Pool.exists_reach (List.replicate 10 1 ++ List.replicate 13 0 ++ List.replicate 3 2) (Pool.along_true _ _ _)
      ⟨_, rfl, _, rfl⟩
  obtain ⟨p, hexecutes, r, hret⟩ := hrun
  have hreach : Pool.Reach Fs.MayFail (fun _ _ _ _ => True) _ p := hexecutes.mono fun hstep => .inl hstep.2
  have hparts : ∀ {r}, r ∈ [Sample.cachedAt 1, Sample.cachedAt 2] → ∀ {a}, a ∈ r.parts →
      ∃ v, (v = 1 ∨ v = 2) ∧ a = Sample.cachedAt v := by
    intro r hr a ha
    obtain rfl | rfl := List.mem_pair.mp hr
    · exact ⟨1, .inl rfl, List.mem_singleton.mp ha⟩
    · exact ⟨2, .inr rfl, List.mem_singleton.mp ha⟩
  have hext : Sample.cacheExternal.Lawful (WrittenBy [Sample.cachedAt 1, Sample.cachedAt 2])
      fun _ _ _ => [Sample.file "m.proto" [1]] := by
    refine ⟨?_, fun _ _ _ => rfl⟩
    rintro ns chain snap ⟨r, hr, a, ha, rfl, rfl, hsnap⟩
    obtain ⟨v, hv, rfl⟩ := hparts hr ha
    obtain ⟨rfl⟩ := Option.some.inj hsnap
    obtain rfl | rfl := hv <;> rfl
  have hsets : ∀ r ∈ [Sample.cachedAt 1, Sample.cachedAt 2], ∀ a ∈ r.parts, ∀ snap, a.snapshot = some snap →
      ∀ sc ss, snap.schemas.get sc = some ss → idPattern sc ∧ ss.rawDescriptorSet = [Sample.file "m.proto" [1]] := by
    intro r hr a ha snap hsnap sc ss hss
    obtain ⟨v, -, rfl⟩ := hparts hr ha
    obtain ⟨ss', hsnap', hset⟩ := Sample.snapshot_cachedAt v
    rw [hsnap'] at hsnap
    cases hsnap
    change (Dict.set _ "s" ss').get sc = some ss at hss
    rw [Dict.get_set] at hss
    split at hss
    · next hsc =>
      cases hss
      exact ⟨hsc ▸ rfl, hset⟩
    · cases hss
  have hchains : ∀ r ∈ [Sample.cachedAt 1, Sample.cachedAt 2], ∀ a ∈ r.parts, a.recordedChain.Nodup := by
    intro r hr a ha
    obtain ⟨v, -, rfl⟩ := hparts hr ha
    exact List.nodup_nil
  obtain ⟨disk, hwhole, heq⟩ | ⟨⟨e, ⟨⟩⟩, -⟩ := shared_cache_whole (k := 0) hext hsets hchains hreach rfl hret
  refine ⟨p, r, hreach, hret, disk, hwhole, ?_⟩
  cases hload : loadFromCache Sample.env disk "n" {} with
  | error e =>
    rw [hload] at heq
    cases heq
  | ok r' =>
    rw [hload] at heq
    cases heq
    rfl

end ProtoRegistry
