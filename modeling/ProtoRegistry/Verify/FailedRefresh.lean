import ProtoRegistry.Verify.Refreshing
import ProtoRegistry.Verify.Reregistration

/-!
# Refreshes that return an error

Up to its first removal `Refresh` changes nothing. From there on it takes the files and the types of the sets
that are gone or replaced out of the registries, one after the other, and it returns an error at the first that
is no longer there.
-/

namespace ProtoRegistry.Client

/-! ## What is taken out -/

/-- A file or a type of the registries of a namespace. -/
inductive Entry where
  | file (path : String)
  | type (kind : TypeKind) (name : FullName)
  deriving DecidableEq

/-- What `removeFromAggregate` takes out, in this order. -/
def SchemaSnapshot.entries (ss : SchemaSnapshot) : List Entry :=
  ss.aggFingerprint.filePaths.map .file ++ (ss.aggFingerprint.messages.map (.type .message) ++
    (ss.aggFingerprint.enums.map (.type .enum) ++ ss.aggFingerprint.extensions.map (.type .extension)))

def Aggregate.Has (agg : Aggregate) : Entry → Prop
  | .file path => (agg.nsFiles.filesByPath.get path).isSome
  | .type kind name => (agg.nsTypes.typesByName.get name).map (·.kind) = some kind

instance (agg : Aggregate) : DecidablePred agg.Has
  | .file path => inferInstanceAs (Decidable ((agg.nsFiles.filesByPath.get path).isSome = true))
  | .type kind name => inferInstanceAs (Decidable ((agg.nsTypes.typesByName.get name).map (·.kind) = some kind))

/-- The entries can be taken out one after the other. -/
def Aggregate.Removable (agg : Aggregate) (entries : List Entry) : Prop :=
  entries.Nodup ∧ ∀ k ∈ entries, agg.Has k

instance (agg : Aggregate) (entries : List Entry) : Decidable (agg.Removable entries) := instDecidableAnd

theorem Aggregate.Answers.has_iff {agg agg' : Aggregate} (h : agg.Answers agg') (k : Entry) :
    agg.Has k ↔ agg'.Has k := by
  cases k with
  | file path => rw [Has, Has, h.findFileByPath]
  | type kind name => rw [Has, Has, h.findTypeByName]

theorem wrap_notFound_ne_panic (text : String) : wrap text .notFound ≠ .panic := nofun

theorem eq_notFound_of_unregisterOfKind {types : NamespacedTypes} {name : FullName} {kind : TypeKind}
    (h : unregisterOfKind types name kind = .error e) : e = .notFound := by
  have hplain : ∀ kind, types.unregisterType kind name = .error e → e = .notFound := by
    intro kind h
    rw [NamespacedTypes.unregisterType] at h
    split at h
    · split at h <;> cases h
      rfl
    · cases h
      rfl
  cases kind with
  | message => exact hplain _ h
  | enum => exact hplain _ h
  | extension =>
    rw [unregisterOfKind, NamespacedTypes.unregisterExtension] at h
    split at h <;> cases h
    rfl

theorem erases_unregisterFile (sc path : String) :
    StateE.Erases Aggregate.Has (· ≠ .panic) (.change (unregisterFile sc path)) [.file path] := by
  refine StateE.Erases.change (fun agg hhas => ?_) fun agg hmissing => ?_
  · rw [Aggregate.Has, ← agg.nsFiles.isSome_record, Option.isSome_iff_exists] at hhas
    obtain ⟨old, hold⟩ := hhas
    have hok := NamespacedFiles.unregisterFile_eq_ok_iff.mpr ⟨old, hold, rfl⟩
    refine ⟨_, by rw [unregisterFile, hok], fun k => ?_⟩
    have hsame := ((NamespacedFiles.sameFiles_deleteNames agg.nsFiles old.names).trans
      (NamespacedFiles.sameFiles_leavePackage _ old.pkg path)).deleteFile path
    cases k with
    | type kind name => simp [Aggregate.Has]
    | file q =>
      rw [Aggregate.Has, Aggregate.Has, hsame.filesByPath, NamespacedFiles.deleteFile, Dict.get_delete]
      split <;> simp_all
  · rw [Aggregate.Has, ← agg.nsFiles.isSome_record, Option.not_isSome_iff_eq_none] at hmissing
    have herror : agg.nsFiles.unregisterFile path = .error .notFound := by
      rw [NamespacedFiles.unregisterFile, hmissing]
    exact ⟨_, by rw [unregisterFile, herror], wrap_notFound_ne_panic _⟩

theorem erases_unregisterName (sc : String) (kind : TypeKind) (name : FullName) :
    StateE.Erases Aggregate.Has (· ≠ .panic) (.change (unregisterName sc kind name)) [.type kind name] := by
  refine StateE.Erases.change (fun agg hhas => ?_) fun agg hmissing => ?_
  · obtain ⟨t, hget, rfl⟩ := Option.map_eq_some_iff.mp hhas
    obtain rfl := agg.nsTypes.fullName_of_get hget
    obtain ⟨types, hok, hleft⟩ := NamespacedTypes.left_unregisterOfKind hget
    refine ⟨_, by rw [unregisterName, hok], fun k => ?_⟩
    cases k with
    | file path => simp [Aggregate.Has]
    | type kind name =>
      rw [Aggregate.Has, Aggregate.Has, hleft.types, Dict.get_delete]
      split
      · next hname =>
        -- the name is gone under every kind, and it was there under this one only
        rw [hname, hget]
        simpa using fun h => h.symm
      · next hname => simp [hname]
  · cases hres : unregisterOfKind agg.nsTypes name kind with
    | ok types =>
      obtain ⟨t, hget, hkind⟩ := NamespacedTypes.exists_of_unregisterOfKind hres
      exact absurd (Option.map_eq_some_iff.mpr ⟨t, hget, hkind⟩) hmissing
    | error e =>
      obtain rfl := eq_notFound_of_unregisterOfKind hres
      exact ⟨_, by rw [unregisterName, hres], wrap_notFound_ne_panic _⟩

theorem erases_removeFromAggregate (ss : SchemaSnapshot) :
    StateE.Erases Aggregate.Has (· ≠ .panic) (removeFromAggregate ss) ss.entries := by
  have hnames := fun kind names => StateE.Erases.forM (erases_unregisterName ss.schemaID kind) names
  have hfiles := StateE.Erases.forM (erases_unregisterFile ss.schemaID) ss.aggFingerprint.filePaths
  simp only [← List.map_eq_flatMap] at hnames hfiles
  exact hfiles.bind ((hnames .message _).bind ((hnames .enum _).bind (hnames .extension _)))

/-! ## What the difference does -/

/-- What a refresh takes out, in this order. -/
def RefreshPlan.doomed (plan : RefreshPlan) (removed : List SchemaSnapshot) : List Entry :=
  removed.flatMap (·.entries) ++ plan.replaced.flatMap (·.1.entries)

theorem applyToAggregate_panics (ss : SchemaSnapshot) (order : List FileDescriptor) :
    StateE.Triple (fun _ : Aggregate => True) (applyToAggregate ss order) (fun _ _ => True) fun e _ => e = .panic := by
  refine StateE.Triple.forM (J := fun _ _ _ => True) ?_
  intro done f rest _
  refine StateE.Triple.change (fun _ _ _ _ => trivial) fun agg e _ hstep => ?_
  have hinsert : ∀ {r : NamespacedFiles} {e}, r.insertFileLocked f = .error e → e = .panic := by
    intro r e h
    rw [NamespacedFiles.insertFileLocked] at h
    split at h
    · cases h
    · cases h
      rfl
  rw [applyFile] at hstep
  split at hstep
  · next e' he' =>
    cases hstep
    rw [NamespacedFiles.updateFile] at he'
    have hpanic : e' = .panic := by split at he' <;> exact hinsert he'
    rw [hpanic]
    rfl
  · cases hstep

theorem ClientErr.context_ne_panic {text : String} {e : ClientErr} (h : e ≠ .panic) : e.context text ≠ .panic := by
  cases e with
  | panic => exact absurd rfl h
  | error e => nofun

theorem applyToAggregates_panics (l : List SchemaSnapshot) (text : String) :
    StateE.Triple (fun _ : Aggregate => True)
      (l.forM fun ss => (applyToAggregate ss ss.files.rangeFiles).mapError (·.context text))
      (fun _ _ => True) fun e _ => e = .panic := by
  refine StateE.Triple.forM (J := fun _ _ _ => True) ?_
  intro done ss rest _
  apply StateE.Triple.mapError
  exact (applyToAggregate_panics ss _).weaken (fun _ h => h) (fun _ _ h => h) fun e _ h => by rw [h]; rfl

theorem erases_removeAll {α : Type} (l : List α) (f : α → SchemaSnapshot) (text : String) :
    StateE.Erases Aggregate.Has (· ≠ .panic)
      (l.forM fun a => (removeFromAggregate (f a)).mapError (·.context text)) (l.flatMap fun a => (f a).entries) := by
  refine StateE.Erases.forM (fun a => ?_) l
  have hsame : ∀ e : ClientErr, e ≠ .panic → e.context text ≠ .panic := fun _ => ClientErr.context_ne_panic
  exact (erases_removeFromAggregate (f a)).mapError hsame

section
variable {plan : RefreshPlan} {removed : List SchemaSnapshot} {agg : Aggregate}

theorem applyDiff_of_removable (h : agg.Removable (plan.doomed removed))
    (hexec : (applyDiff plan removed).exec agg = (.error e, agg')) : e = .panic := by
  have hout := (erases_removeAll removed (fun ss => ss) "refresh aggregate remove").bind
    (erases_removeAll plan.replaced (·.1) "refresh aggregate replace (remove old)")
  obtain ⟨agg₁, hexec₁, -⟩ := hout.ok agg h.1 h.2
  rw [applyDiff, ← bind_assoc, StateE.exec_bind] at hexec
  rw [hexec₁] at hexec
  exact (applyToAggregates_panics plan.toApply _).error trivial hexec

theorem applyDiff_of_not_removable (h : ¬ agg.Removable (plan.doomed removed)) :
    ∃ e agg', (applyDiff plan removed).exec agg = (.error (.error e), agg') ∧
      ∃ k ∈ (plan.doomed removed).head?, ¬ agg'.Has k ∧ (agg.Has k ∨ agg' = agg) := by
  have hout := (erases_removeAll removed (fun ss => ss) "refresh aggregate remove").bind
    (erases_removeAll plan.replaced (·.1) "refresh aggregate replace (remove old)")
  obtain ⟨e, agg', hexec, hpanic, -, hhead⟩ := hout.error agg h
  cases e with
  | panic => exact absurd rfl hpanic
  | error e =>
    refine ⟨e, agg', ?_, hhead⟩
    rw [applyDiff, ← bind_assoc, StateE.exec_bind]
    rw [hexec]

end

/-! ## The refresh -/

/-- The entries of the sets that are gone or replaced. -/
def Resolver.doomed (env : External) (r : Resolver) (plan : RefreshPlan) : List Entry :=
  plan.doomed (removedBy env.rangeKeys r.snapshot plan.next)

section
variable {env : External} {server : Server} {r : Resolver} {plan : RefreshPlan}
  {infos : List SchemaInfo}

theorem exists_plan (hfetch : ∀ sc v, ⟨sc, some v⟩ ∈ infos → ∃ ss, fetchSchema env server r sc v = .ok ss) :
    ∃ plan, infos.foldlM (planSchema env server r) ⟨.new, [], []⟩ = .ok plan := by
  refine foldlM_eq_ok ?_ _
  intro ⟨sc, version⟩ hinfo plan
  cases version with
  | none => exact ⟨plan, rfl⟩
  | some v =>
    obtain ⟨ss, hss⟩ := hfetch sc v hinfo
    have hfresh : fetchForRefresh env server r sc v = .ok ss := by
      rw [fetchForRefresh, hss]
      rfl
    simp only [planSchema, hfresh]
    split
    · split
      · exact ⟨_, rfl⟩
      · exact ⟨_, rfl⟩
    · exact ⟨_, rfl⟩

theorem Resolver.Plans.unchanged_iff (h : r.Plans env server plan) (hindex : plan.next.buildNameIndex = .ok next) :
    (∀ e r', refresh env server r = (.error (.error e), r') →
      r'.snapshot = r.snapshot ∧ r'.toAggregate.Answers r.toAggregate) ↔
      r.Removable (r.doomed env plan) ∨ ∃ k ∈ (r.doomed env plan).head?, ¬ r.Has k := by
  rw [h.refresh_eq, hindex]
  by_cases hall : r.Removable (r.doomed env plan)
  · refine iff_of_true (fun e r' hres => ?_) (.inl hall)
    simp only at hres
    split at hres
    · next hexec =>
      cases hres
      cases applyDiff_of_removable hall hexec
    · cases hres
  · obtain ⟨e, agg, hexec, k, hk, hgone, hor⟩ := applyDiff_of_not_removable hall
    simp only [hexec, Prod.mk.injEq, Except.error.injEq, ClientErr.error.injEq]
    constructor
    · intro hsame
      obtain ⟨-, hanswers⟩ := hsame e _ ⟨rfl, rfl⟩
      exact .inr ⟨k, hk, fun hhas => hgone ((hanswers.has_iff k).mpr hhas)⟩
    · rintro (hall' | ⟨k', hk', hmissing⟩)
      · exact absurd hall' hall
      · cases Option.mem_unique hk hk'
        obtain rfl := hor.resolve_left hmissing
        rintro _ _ ⟨-, rfl⟩
        exact ⟨rfl, rfl, rfl, rfl, rfl⟩

/-- Where everything could be fetched, a refresh succeeds if and only if the names are unambiguous, everything
can be taken out, and adding does not panic. -/
theorem refresh_eq_ok_iff (hinfos : listAllSchemas server r = .ok infos)
    (hfetch : ∀ sc v, ⟨sc, some v⟩ ∈ infos → ∃ ss, fetchSchema env server r sc v = .ok ss) :
    (∃ r', refresh env server r = (.ok (), r')) ↔ r.fromCache = false ∧ ∀ plan, r.Plans env server plan →
      (∃ next, plan.next.buildNameIndex = .ok next) ∧ r.Removable (r.doomed env plan) ∧
        ((applyDiff plan (removedBy env.rangeKeys r.snapshot plan.next)).exec r.toAggregate).1 ≠ .error .panic := by
  obtain ⟨plan, hplan⟩ := exists_plan hfetch
  have heq : ∀ plan', r.Plans env server plan' → plan' = plan := fun _ hplans => hplans.eq hinfos hplan
  rcases hres : refresh env server r with ⟨res, r'⟩
  cases refreshed_of_eq hres with
  | stopped hnone => exact iff_of_false (by simp) fun h => hnone infos plan h.1 hinfos hplan
  | unchanged hlive hinfos' hplan' hadded hreplaced hremoved hsome =>
    refine iff_of_true ⟨_, rfl⟩ ⟨hlive, fun plan' hplans => ?_⟩
    obtain rfl := hplans.eq hinfos' hplan'
    simpa [hadded, hreplaced, hremoved, hsome] using hplans.changes
  | ambiguous hplans hindex =>
    refine iff_of_false (by simp) fun h => ?_
    obtain ⟨⟨next, hnext⟩, -⟩ := h.2 _ hplans
    cases hindex.symm.trans hnext
  | failed hplans hindex hexec =>
    refine iff_of_false (by simp) fun h => ?_
    obtain ⟨-, hall, hpanic⟩ := h.2 _ hplans
    rw [hexec, applyDiff_of_removable hall hexec] at hpanic
    exact hpanic rfl
  | applied hplans hindex hexec =>
    refine iff_of_true ⟨_, rfl⟩ ⟨hplans.live, fun plan' hplans' => ?_⟩
    obtain rfl := (heq _ hplans).trans (heq _ hplans').symm
    refine ⟨⟨_, hindex⟩, by_contra fun hnot => ?_, by rw [hexec]; nofun⟩
    obtain ⟨e, agg, herror, -⟩ := applyDiff_of_not_removable hnot
    cases herror.symm.trans hexec

/-- Up to the first removal a refresh leaves the resolver as it was. From there on a returned error leaves every
lookup as it was if and only if it does not occur, because the entries of the sets that are gone or replaced are
distinct and present, or occurs at the first of them. A refresh that could fetch everything succeeds
if and only if the names are unambiguous, the entries can be taken out and adding does not panic. -/
theorem refresh_stale_while_error (env : External) (server : Server) (r : Resolver) :
    ((∀ plan next, r.Plans env server plan → plan.next.buildNameIndex ≠ .ok next) → (refresh env server r).2 = r) ∧
      (∀ plan next, r.Plans env server plan → plan.next.buildNameIndex = .ok next →
        ((∀ e r', refresh env server r = (.error (.error e), r') →
          r'.snapshot = r.snapshot ∧ r'.toAggregate.Answers r.toAggregate) ↔
          r.Removable (r.doomed env plan) ∨ ∃ k ∈ (r.doomed env plan).head?, ¬ r.Has k)) ∧
      ∀ parent fresh, newSingleNamespace env server r.ns r.cfg parent = .ok fresh →
        ((∃ r', refresh env server r = (.ok (), r')) ↔ r.fromCache = false ∧ ∀ plan, r.Plans env server plan →
          (∃ next, plan.next.buildNameIndex = .ok next) ∧ r.Removable (r.doomed env plan) ∧
            ((applyDiff plan (removedBy env.rangeKeys r.snapshot plan.next)).exec r.toAggregate).1 ≠
              .error .panic) := by
  refine ⟨fun hnone => ?_, fun plan next hplan hindex => hplan.unchanged_iff hindex, fun parent fresh hfresh => ?_⟩
  · rcases hres : refresh env server r with ⟨res, r'⟩
    cases refreshed_of_eq hres with
    | stopped | unchanged | ambiguous => rfl
    | failed hplans hindex => exact absurd hindex (hnone _ _ hplans)
    | applied hplans hindex => exact absurd hindex (hnone _ _ hplans)
  · obtain ⟨infos, snap, _, _, hinfos, hload, _⟩ := populate_eq_ok hfresh
    have hfetch := fetch_of_loadSchemas hload
    cases parent <;> exact refresh_eq_ok_iff hinfos hfetch

/-- Where `a` and `c` define the same message, the refresh fails before it removes `b`. After `a` is removed and
with it the shared file, a refresh that has to remove `b` fails at this file. A refresh that only adds succeeds. -/
theorem refresh_stale_while_error_shared : ∃ r r₁ : Resolver,
    newSingleNamespace Sample.env (Sample.server [] fun _ => [Sample.sharing "a" 1, Sample.sharing "b" 2]) "n" {} none =
      .ok r ∧
    (∃ e, refresh Sample.env (Sample.server [] fun _ => [Sample.sharing "a" 1, Sample.sharing "c" 1]) r =
      (.error (.error e), r)) ∧
    refresh Sample.env (Sample.server [] fun _ => [Sample.sharing "b" 2]) r = (.ok (), r₁) ∧
    (∃ e r₂, refresh Sample.env (Sample.server [] fun _ => []) r₁ = (.error (.error e), r₂) ∧
      r₂.toAggregate.Answers r₁.toAggregate) ∧
    ∃ r₂, refresh Sample.env (Sample.server [] fun _ =>
      [Sample.sharing "a" 1, Sample.sharing "b" 2, Sample.sharing "c" 3]) r = (.ok (), r₂) := by
  have hfirst : ∀ {r r' plan next k e}, r.Plans Sample.env (Sample.server [] fun _ => []) plan →
      plan.next.buildNameIndex = .ok next → (r.doomed Sample.env plan).head? = some k → ¬ r.Has k →
      refresh Sample.env (Sample.server [] fun _ => []) r = (.error (.error e), r') →
      r'.toAggregate.Answers r.toAggregate := fun hplan hindex hhead hmissing hres =>
    (((refresh_stale_while_error _ _ _).2.1 _ _ hplan hindex).mpr (.inr ⟨_, hhead, hmissing⟩) _ _ hres).2
  refine ⟨_, _, rfl, ⟨_, Prod.ext rfl ?_⟩, rfl, ?_, ?_⟩
  · apply (refresh_stale_while_error _ _ _).1
    rintro plan next ⟨-, ⟨infos, hinfos, hplan⟩, -⟩ hindex
    cases hinfos
    cases hplan
    cases hindex
  · refine ⟨_, _, rfl, hfirst ⟨rfl, ⟨_, rfl, rfl⟩, rfl⟩ rfl rfl (by decide +kernel) rfl⟩
  · refine ((refresh_stale_while_error _ _ _).2.2 none _ rfl).mpr ⟨rfl, ?_⟩
    rintro plan ⟨-, ⟨infos, hinfos, hplan⟩, -⟩
    cases hinfos
    cases hplan
    exact ⟨⟨_, rfl⟩, by decide +kernel, nofun⟩

/-- Two schemas with the same empty file are both gone: the second cannot be taken out any more. -/
theorem half_removed : ∃ r e r',
    newSingleNamespace Sample.env (Sample.server [] fun _ =>
      [("a", [Sample.file "common.proto" [], Sample.file "a.proto" [1]]),
        ("b", [Sample.file "common.proto" [], Sample.file "b.proto" [2]])]) "n" {} none = .ok r ∧
    refresh Sample.env (Sample.server [] fun _ => []) r = (.error (.error e), r') ∧
    r.findFileByPath "a.proto" = .ok (Sample.file "a.proto" [1]) ∧
    r'.findFileByPath "a.proto" = .error .notFound := by
  exact ⟨_, _, _, rfl, rfl, rfl, rfl⟩

end

end ProtoRegistry.Client
