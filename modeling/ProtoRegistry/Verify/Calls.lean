import ProtoRegistry.Verify.Scopes

/-!
# What a call does to the pointers

A call of the registry moves the pointers of the store in one operation and then brings the slots in
memory up to date. `Mirror` says how far a call is with that, as a function of what it has performed,
and `CallGuard` says what a call knows when it performs an operation that matters: which version it
stages and where its snapshot comes from, and which snapshots it has compared before it promotes.
`run_spec` establishes the guard for every call, whatever the store and the other calls do; the results
about runs and about interleavings only use the guard.
-/

namespace ProtoRegistry

open RegistryM

abbrev CallHistory := Prog.History registryInterface

/-! ## Rules for the operations -/

section
variable {A : Op → Prop} {G : CallHistory → Op → Prop} {h : CallHistory}

theorem uses_store {op : StoreOp} (hA : A (.store op)) : Uses A (store op) := (scoped_store hA).done

theorem uses_mem {op : MemOp} (hA : A (.mem op)) : Uses A (mem op) := (scoped_mem hA).done

theorem spec_mem {op : MemOp} (hG : G h (.mem op)) :
    Spec G (mem op) h fun res h' => ∃ a, res = .ok a ∧ h' = ⟨.mem op, a⟩ :: h :=
  ⟨hG, fun a _ => ⟨a, rfl, rfl⟩⟩

theorem spec_store_bind {op : StoreOp} {context : String} {f : op.Val → RegistryM α}
    {Q : Except Err α → CallHistory → Prop} (hG : G h (.store op))
    (herr : ∀ e e', Q (.error e) (⟨.store op, .error e'⟩ :: h))
    (hok : ∀ a, Spec G (f a) (⟨.store op, .ok a⟩ :: h) Q) :
    Spec G ((store op).wrap context >>= f) h Q := by
  refine ⟨hG, fun res _ => ?_⟩
  cases res with
  | error e => exact herr _ e
  | ok a => exact hok a

theorem Spec.wrap {x : RegistryM α} {context : String} {R : Except Err α → CallHistory → Prop}
    (hx : Spec G x h fun res h' => R (res.mapError (·.wrap context)) h') :
    Spec G (x.wrap context) h R :=
  Prog.Contract.bind (Prog.Contract.mono hx fun _ _ hres => hres)

theorem spec_mem_bind {op : MemOp} {f : op.Val → RegistryM α} {Q : Except Err α → CallHistory → Prop}
    (hG : G h (.mem op)) (hok : ∀ a, Spec G (f a) (⟨.mem op, a⟩ :: h) Q) :
    Spec G (mem op >>= f) h Q :=
  ⟨hG, fun a _ => hok a⟩

theorem spec_liftExcept_bind {res : Except Err α} {f : α → RegistryM β}
    {Q : Except Err β → CallHistory → Prop} (herr : ∀ e, res = .error e → Q (.error e) h)
    (hok : ∀ a, res = .ok a → Spec G (f a) h Q) : Spec G (liftExcept res >>= f) h Q := by
  cases res with
  | error e => exact herr e rfl
  | ok a => exact hok a rfl

end

/-! ## How far a call is -/

/-- Where a call stands with the pointers it moves. -/
inductive Mirror where
  /-- The store's pointers have not been moved. -/
  | before
  /-- The store has staged a version, the slot has not been written. -/
  | stage (namespaceID schemaID : String) (version : Nat)
  | staged (namespaceID schemaID : String) (version : Nat)
  /-- The store has promoted, the slots have not been visited. -/
  | promote (namespaceID : String)
  | promoteSlots (namespaceID : String) (rest : List String)
  /-- A staged snapshot has been taken out of its slot and is not current yet. -/
  | promoteHalf (namespaceID schemaID : String) (snap : Snapshot) (rest : List String)
  /-- The store has discarded, the slots have not been visited. -/
  | discard (namespaceID : String)
  | discardSlots (namespaceID : String) (rest : List String)

/-- How an operation and its result move a call on. -/
def Mirror.next : Mirror → (op : Op) → op.Res → Mirror
  | _, .store (.setStaged ns sc v), .ok _ => .stage ns sc v
  | _, .store (.promote ns), .ok _ => .promote ns
  | _, .store (.discardStaging ns), .ok _ => .discard ns
  | .stage ns sc v, .mem (.setStaged ..), _ => .staged ns sc v
  | .promote ns, .mem (.schemaIDs _), ids => .promoteSlots ns ids
  | .promoteSlots ns (_ :: rest), .mem (.swapStaged ..), none => .promoteSlots ns rest
  | .promoteSlots ns (sc :: rest), .mem (.swapStaged ..), some snap => .promoteHalf ns sc snap rest
  | .promoteHalf ns _ _ rest, .mem (.storeCurrent ..), _ => .promoteSlots ns rest
  | .discard ns, .mem (.get _), false => .discardSlots ns []
  | .discard ns, .mem (.schemaIDs _), ids => .discardSlots ns ids
  | .discardSlots ns (_ :: rest), .mem (.clearStaged ..), _ => .discardSlots ns rest
  | m, _, _ => m

def mirror (h : CallHistory) : Mirror := h.foldr (fun e m => m.next e.1 e.2) .before

theorem mirror_cons {op : Op} {res : op.Res} {h : CallHistory} {m : Mirror} (hm : mirror h = m) :
    mirror (⟨op, res⟩ :: h) = m.next op res := by
  rw [← hm]
  rfl

/-- Operations that do not touch pointers, slots, versions or parents. -/
def Quiet : Op → Prop
  | .store (.getNamespace _) | .store (.createNamespace _ none) | .store .listNamespaces
  | .store (.putBlob ..) | .store (.getBlob ..) | .store (.createSchema ..) | .store (.getSchema ..)
  | .store (.getVersion ..) | .store (.getVersionFiles ..) | .store (.getVersionDeps ..)
  | .store (.listVersions ..) | .store .loadAllCurrent | .store (.loadNamespaceCurrent _)
  | .store (.loadNamespaceProposed _) | .mem (.get _) | .mem (.getOrCreate _) | .mem (.parent _)
  | .mem (.schemaIDs _) | .mem (.current ..) | .mem (.staged ..) => True
  | _ => False

theorem Mirror.next_before_of_quiet {op : Op} (hop : Quiet op) (res : op.Res) :
    Mirror.next .before op res = .before := by
  unfold Mirror.next
  split <;> first | rfl | contradiction

theorem Mirror.of_next_eq_before {m : Mirror} {op : Op} {res : op.Res} (h : m.next op res = .before) :
    m = .before := by
  unfold Mirror.next at h
  split at h
  case h_12 => exact h
  all_goals cases h

theorem Mirror.of_next_eq_stage {m : Mirror} {op : Op} {res : op.Res} (h : m.next op res = .stage ns sc v) :
    m = .stage ns sc v ∨ ∃ u, (⟨op, res⟩ : (op : Op) × op.Res) = ⟨.store (.setStaged ns sc v), .ok u⟩ := by
  unfold Mirror.next at h
  split at h
  case h_1 =>
    cases h
    exact .inr ⟨_, rfl⟩
  case h_12 => exact .inl h
  all_goals cases h

theorem Mirror.of_next_eq_staged {m : Mirror} {op : Op} {res : op.Res} (h : m.next op res = .staged ns sc v) :
    m = .staged ns sc v ∨ m = .stage ns sc v := by
  unfold Mirror.next at h
  split at h
  case h_4 =>
    cases h
    exact .inr rfl
  case h_12 => exact .inl h
  all_goals cases h

theorem Mirror.of_next_eq_promoteHalf {m : Mirror} {op : Op} {res : op.Res}
    (h : m.next op res = .promoteHalf ns sc snap rest) :
    m = .promoteHalf ns sc snap rest ∨
      m = .promoteSlots ns (sc :: rest) ∧ ∃ ns' sc',
        (⟨op, res⟩ : (op : Op) × op.Res) = ⟨.mem (.swapStaged ns' sc'), some snap⟩ := by
  unfold Mirror.next at h
  split at h
  case h_7 => cases h; exact .inr ⟨rfl, _, _, rfl⟩
  case h_12 => exact .inl h
  all_goals cases h

/-! ## What a call knows -/

def Call.Publishes (ns sc : String) : Call → Prop
  | .publish req => req.namespaceID = ns ∧ req.schemaID = sc
  | .rebase ns' sc' => ns' = ns ∧ sc' = sc
  | _ => False

def Call.IsRollback : Call → Prop
  | .rollback .. => True
  | _ => False

def Call.IsHierarchy : Call → Prop
  | .createNamespace .. | .setNamespaceParent .. => True
  | _ => False

/-- The call has stored or loaded the version that the snapshot is of. -/
def Sourced (h : CallHistory) (ns sc : String) (snap : Snapshot) : Prop :=
  ∃ row, snap.fileList.Perm row.compiled ∧
    (⟨.store (.putVersion ns sc snap.version row), .ok ()⟩ ∈ h ∨
      ⟨.store (.getVersion ns sc snap.version), .ok row⟩ ∈ h)

theorem Sourced.ofPut {h : CallHistory} {snap : Snapshot} {row : VersionRow}
    (hput : ⟨.store (.putVersion ns sc snap.version row), .ok ()⟩ ∈ h)
    (hfiles : snap.fileList = row.compiled) : Sourced h ns sc snap :=
  ⟨row, .of_eq hfiles, .inl hput⟩

/-- The call has read a staged and then a current snapshot of the schema, to compare them. -/
def Compared (h : CallHistory) (ns sc : String) (staged : Snapshot) (current : Option Snapshot) :
    Prop :=
  ∃ h₁ h₂, h = h₁ ++ ⟨.mem (.current ns sc), current⟩ :: ⟨.mem (.staged ns sc), some staged⟩ :: h₂

/-- What the comparison before a promotion accepts. -/
def Passes (staged : Snapshot) (current : Option Snapshot) : Prop :=
  (∃ c ∈ current, staged.version ≤ c.version) ∨ Compat.Ok current staged

/-- The call has compared the schemas it found in the namespace, and accepted them all. -/
def Checked (h : CallHistory) (ns : String) : Prop :=
  (∃ ids, ⟨.mem (.schemaIDs ns), ids⟩ ∈ h ∧ ∀ sc ∈ ids,
    ⟨.mem (.staged ns sc), none⟩ ∈ h ∨ ∃ staged current, Compared h ns sc staged current) ∧
  ∀ sc staged current, Compared h ns sc staged current → Passes staged current

/-- The target of a rollback was compared with what the call read as current. -/
def RollbackChecked (h : CallHistory) (ns sc : String) (snap : Snapshot) : Prop :=
  (⟨.mem (.get ns), false⟩ ∈ h ∨ ∃ current, ⟨.mem (.current ns sc), current⟩ ∈ h) ∧
  ∀ current, ⟨.mem (.current ns sc), current⟩ ∈ h → Compat.Ok current snap

/-- The number of a version that a publishing call may store. -/
def Allocated (h : CallHistory) (ns sc : String) (v : Nat) : Prop :=
  ∃ versions, ⟨.store (.listVersions ns sc), .ok versions⟩ ∈ h ∧ v = Registry.nextVersion versions

theorem Allocated.mono {h h' : CallHistory} (hh : h <:+ h') (hv : Allocated h ns sc v) :
    Allocated h' ns sc v := by
  obtain ⟨versions, hmem, heq⟩ := hv
  exact ⟨versions, hh.subset hmem, heq⟩

theorem Allocated.ne_zero (hv : Allocated h ns sc v) : v ≠ 0 := by
  obtain ⟨versions, -, rfl⟩ := hv
  unfold Registry.nextVersion
  split <;> simp

def ReadsParents (h : CallHistory) (parent : String → Option String) : Prop :=
  ∀ a p, ⟨.mem (.parent a), p⟩ ∈ h → p = parent a

/-- The call has met the ancestors of a namespace, as far up as `Chain` looks. -/
def Climbed (h : CallHistory) (ns : String) (ancestors : List String) : Prop :=
  ∀ parent, ReadsParents h parent → ∀ d < chainMaxDepth, ∀ a, climb parent d ns = some a →
    a ∈ ns :: ancestors

/-- The call has found no name of the snapshot defined elsewhere by a current schema of the namespace. -/
def ComparedWith (h : CallHistory) (child : Snapshot) (ns : String) : Prop :=
  ∃ ids, ⟨.mem (.schemaIDs ns), ids⟩ ∈ h ∧ ∀ sc ∈ ids, ∃ current, ⟨.mem (.current ns sc), current⟩ ∈ h ∧
    ∀ snap ∈ current, detectFQNConflicts child snap = []

/-- The call has found no name of the snapshot defined elsewhere by an ancestor of the namespace. -/
def Unshadowed (h : CallHistory) (ns : String) (child : Snapshot) : Prop :=
  ∃ ancestors, Climbed h ns ancestors ∧ ∀ a ∈ ancestors, ComparedWith h child a

theorem ReadsParents.mono {h h' : CallHistory} (hh : h <:+ h') (hr : ReadsParents h' parent) :
    ReadsParents h parent := fun a p hmem => hr a p (hh.subset hmem)

theorem ComparedWith.mono {h h' : CallHistory} (hh : h <:+ h') (hc : ComparedWith h child ns) :
    ComparedWith h' child ns := by
  obtain ⟨ids, hids, hall⟩ := hc
  refine ⟨ids, hh.subset hids, fun sc hsc => ?_⟩
  obtain ⟨current, hmem, hnone⟩ := hall sc hsc
  exact ⟨current, hh.subset hmem, hnone⟩

theorem Unshadowed.mono {h h' : CallHistory} (hh : h <:+ h') (hu : Unshadowed h ns child) :
    Unshadowed h' ns child := by
  obtain ⟨ancestors, hclimbed, hall⟩ := hu
  exact ⟨ancestors, fun parent hr => hclimbed parent (hr.mono hh), fun a ha => (hall a ha).mono hh⟩

/-- What holds of a version that this build has compiled. -/
structure VersionRow.Built (env : External) (row : VersionRow) : Prop where
  paths : (row.compiled.map (·.path)).Nodup
  registered : env.registerFiles row.compiled = .ok ()
  compiles : env.Compiles row.compiled
  files : row.files ≠ []
  compilerVersion : row.compilerVersion = env.compilerVersion

/-- A version that a call may stage: the one it has stored, or the target of a rollback. -/
def Stages (c : Call) (h : CallHistory) (ns sc : String) (v : Nat) : Prop :=
  (c.Publishes ns sc ∧ Allocated h ns sc v ∧ ∃ row, ⟨.store (.putVersion ns sc v row), .ok ()⟩ ∈ h) ∨
  ∃ force row snap, c = .rollback ns sc v force ∧ ⟨.store (.getVersion ns sc v), .ok row⟩ ∈ h ∧
    snap.version = v ∧ snap.fileList.Perm row.compiled ∧
    (force = false → RollbackChecked h ns sc snap)

/-- Under which circumstances a call performs an operation. -/
def CallGuard (r : Registry) (c : Call) (h : CallHistory) : Op → Prop
  | .store (.putVersion ns sc v row) =>
    mirror h = .before ∧ c.Publishes ns sc ∧ Allocated h ns sc v ∧ row.Built r.env ∧
      Unshadowed h ns ⟨v, row.compiled⟩
  | .store (.setStaged ns sc v) => mirror h = .before ∧ Stages c h ns sc v
  | .store (.promote ns) =>
    mirror h = .before ∧ c = .promote ns ∧ ⟨.mem (.get ns), true⟩ ∈ h ∧ Checked h ns
  | .store (.discardStaging ns) => mirror h = .before ∧ c = .discardStaging ns
  | .store (.setNamespaceParent ..) | .mem (.setParent ..) => c.IsHierarchy
  | .mem (.setCurrent ..) => False
  | .mem (.setStaged ns sc snap) =>
    mirror h = .stage ns sc snap.version ∧ ⟨.mem (.getOrCreate ns), ()⟩ ∈ h ∧ Sourced h ns sc snap
  | .mem (.swapStaged ns sc) => ∃ rest, mirror h = .promoteSlots ns (sc :: rest)
  | .mem (.storeCurrent ns sc snap) => ∃ rest, mirror h = .promoteHalf ns sc snap rest
  | .mem (.clearStaged ns sc) => ∃ rest, mirror h = .discardSlots ns (sc :: rest)
  | .mem (.schemaIDs ns) => ∀ ns', mirror h = .promote ns' ∨ mirror h = .discard ns' → ns' = ns
  | .mem (.get ns) => ∀ ns', mirror h = .discard ns' → ns' = ns
  | .store (.createNamespace _ parent) => parent = none
  | _ => True

/-- A call that fails has not moved the pointers. -/
def orBefore (m : α → Mirror) : Except Err α → Mirror
  | .ok a => m a
  | .error _ => .before

def PublishResult.outcome (ns sc : String) (res : PublishResult) : Mirror :=
  if res.noChange then .before else .staged ns sc res.version

/-- Where a call stands when it has returned a reply. -/
def Call.outcome : Call → Reply → Mirror
  | .publish req, .published res => res.outcome req.namespaceID req.schemaID
  | .rebase ns sc, .published res => res.outcome ns sc
  | .rollback ns sc v _, _ => .staged ns sc v
  | .discardStaging ns, _ => .discardSlots ns []
  | .promote ns, _ => .promoteSlots ns []
  | _, _ => .before

/-! ## Quiet programs -/

section
variable {α : Type} {r : Registry} {c : Call} {h : CallHistory}

theorem callGuard_of_quiet (hbefore : mirror h = .before) {op : Op} (hop : Quiet op) :
    CallGuard r c h op := by
  unfold CallGuard
  split <;> try first | trivial | exact hop.elim | simp [hbefore]
  next parent =>
    cases parent with
    | none => rfl
    | some p => exact hop.elim

theorem spec_quiet {x : RegistryM α} (hx : Uses Quiet x) (hbefore : mirror h = .before) :
    Spec (CallGuard r c) x h fun _ h' => h <:+ h' ∧ mirror h' = .before := by
  refine Spec.ofUses hx (fun _ _ hK hop => callGuard_of_quiet hK hop) (fun h op res hK hop => ?_) hbefore
  exact (mirror_cons hK).trans (Mirror.next_before_of_quiet hop res)

theorem spec_quiet_bind {x : RegistryM α} {f : α → RegistryM β}
    {Q : Except Err β → CallHistory → Prop} (hx : Uses Quiet x) (hbefore : mirror h = .before)
    (herr : ∀ e h', h <:+ h' → mirror h' = .before → Q (.error e) h')
    (hok : ∀ a h', h <:+ h' → mirror h' = .before → Spec (CallGuard r c) (f a) h' Q) :
    Spec (CallGuard r c) (x >>= f) h Q :=
  (spec_quiet hx hbefore).bind (fun e h' hh' => herr e h' hh'.1 hh'.2)
    fun a h' hh' => hok a h' hh'.1 hh'.2

end

theorem quiet_of_readsIn (op : Op) (h : op.ReadsIn fun _ => True) : Quiet op := by
  unfold Op.ReadsIn at h
  split at h <;> trivial

theorem gatherDeps_quiet (ns sc : String) : Uses Quiet (gatherDeps ns sc) :=
  (gatherDeps_scoped quiet_of_readsIn trivial sc).done

theorem gatherChainTiers_quiet (ns : String) : Uses Quiet (gatherChainTiers ns) :=
  (gatherChainTiers_scoped quiet_of_readsIn (climbs_true _) trivial).done

theorem gatherBuiltinsFor_quiet (ns : String) : Uses Quiet (gatherBuiltinsFor ns) :=
  (gatherBuiltinsFor_scoped quiet_of_readsIn trivial ns).done

theorem fetchSources_quiet (ns context : String) (files : List VersionFile) :
    Uses Quiet (Registry.fetchSources ns context files) :=
  (fetchSources_scoped quiet_of_readsIn trivial context files).done

/-! ## The calls -/

section
variable {r : Registry} {c : Call} {h : CallHistory} {ns sc : String}

theorem spec_compileNext {req : PublishRequest} (hbefore : mirror h = .before) :
    Spec (CallGuard r c) (r.compileNext req) h fun res h' => h <:+ h' ∧ mirror h' = .before ∧
      ∀ v result, res = .ok (v, result) →
        Allocated h' req.namespaceID req.schemaID v ∧ result.Valid r.env v req.sources := by
  unfold Registry.compileNext
  refine spec_quiet_bind ((gatherDeps_quiet ..).wrap _) hbefore
    (fun e h' hh' hb' => ⟨hh', hb', by simp⟩) fun deps h₁ hh₁ hb₁ => ?_
  refine spec_quiet_bind ((gatherChainTiers_quiet ..).wrap _) hb₁
    (fun e h' hh' hb' => ⟨hh₁.trans hh', hb', by simp⟩) fun tiers h₂ hh₂ hb₂ => ?_
  refine spec_quiet_bind ((gatherBuiltinsFor_quiet ..).wrap _) hb₂
    (fun e h' hh' hb' => ⟨(hh₁.trans hh₂).trans hh', hb', by simp⟩) fun builtins h₃ hh₃ hb₃ => ?_
  have hh : h <:+ h₃ := (hh₁.trans hh₂).trans hh₃
  refine spec_store_bind trivial
    (fun e e' => ⟨hh.trans (List.suffix_cons _ _), mirror_cons hb₃, by simp⟩) fun versions => ?_
  have hb : mirror (⟨.store (.listVersions req.namespaceID req.schemaID), .ok versions⟩ :: h₃) =
      .before := mirror_cons hb₃
  refine spec_liftExcept_bind (fun e _ => ⟨hh.trans (List.suffix_cons _ _), hb, by simp⟩) ?_
  intro result hresult
  rw [mapError_eq_ok] at hresult
  refine Meets.pure ⟨hh.trans (List.suffix_cons _ _), hb, ?_⟩
  rintro v result' heq
  cases heq
  exact ⟨⟨versions, List.mem_cons_self .., rfl⟩, Compiler.compile_spec hresult⟩

/-- `Chain` goes on upwards until it meets a root, a namespace it has met before, or its bound. -/
theorem spec_chainFrom (n : Nat) (cur : String) (chain : List String) (hbefore : mirror h = .before) :
    Spec (CallGuard r c) (chainFrom n cur chain) h
      (Ends (fun chain' h' => h <:+ h' ∧ mirror h' = .before ∧ chain <+: chain' ∧
        (n ≠ 0 → cur ∉ chain → (chain ++ [cur]) <+: chain') ∧
        ∀ parent, ReadsParents h' parent →
          (∀ x ∈ chain, ∀ y, parent x = some y → y ∈ chain ++ [cur]) →
          ∀ d < n, ∀ a, climb parent d cur = some a → a ∈ chain') fun _ _ => False) := by
  induction n generalizing cur chain h with
  | zero =>
    refine Meets.pure ⟨List.suffix_refl _, hbefore, List.prefix_refl _, by simp, ?_⟩
    intro parent _ _ d hd
    omega
  | succ n ih =>
    unfold chainFrom
    split
    · next hmem =>
      refine Meets.pure ⟨List.suffix_refl _, hbefore, List.prefix_refl _, fun _ hnot => (hnot hmem).elim, ?_⟩
      refine fun parent _ hclosed d _ a ha => climb_mem (fun x hx y hy => ?_) hmem ha
      obtain hy | hy := List.mem_append.mp (hclosed x hx y hy)
      · exact hy
      · exact List.mem_singleton.mp hy ▸ hmem
    · refine spec_mem_bind (callGuard_of_quiet hbefore trivial) fun p => ?_
      cases p with
      | none =>
        refine Meets.pure ⟨List.suffix_cons _ _, mirror_cons hbefore, List.prefix_append _ _,
          fun _ _ => List.prefix_refl _, fun parent hreads _ d _ a ha => ?_⟩
        have hparent : none = parent cur := hreads cur none (List.mem_cons_self ..)
        cases d with
        | zero =>
          cases ha
          simp
        | succ d => simp [climb, ← hparent] at ha
      | some p =>
        refine (ih p (chain ++ [cur]) (mirror_cons hbefore)).mono fun res h' hres => ?_
        cases res with
        | error e => exact hres
        | ok chain' =>
          obtain ⟨hh', hb', hprefix, -, hclimb⟩ := hres
          refine ⟨(List.suffix_cons _ _).trans hh', hb', (List.prefix_append _ _).trans hprefix,
            fun _ _ => hprefix, fun parent hreads hclosed d hd a ha => ?_⟩
          have hparent : some p = parent cur := hreads cur _ (hh'.subset (List.mem_cons_self ..))
          cases d with
          | zero =>
            cases ha
            exact hprefix.subset (by simp)
          | succ d =>
            rw [climb, ← hparent] at ha
            refine hclimb parent hreads (fun x hx y hy => ?_) d (by omega) a ha
            obtain hx | hx := List.mem_append.mp hx
            · exact List.mem_append_left _ (hclosed x hx y hy)
            · cases List.mem_singleton.mp hx
              cases hparent.trans hy
              simp

theorem spec_chain (hbefore : mirror h = .before) :
    Spec (CallGuard r c) (chain ns) h
      (Ends (fun chain' h' => h <:+ h' ∧ mirror h' = .before ∧
        ∃ ancestors, chain' = ns :: ancestors ∧ Climbed h' ns ancestors) fun _ _ => False) := by
  refine (spec_chainFrom chainMaxDepth ns [] hbefore).mono fun res h' hres => ?_
  cases res with
  | error e => exact hres
  | ok chain' =>
    obtain ⟨hh', hb', -, hhead, hclimb⟩ := hres
    obtain ⟨ancestors, rfl⟩ := hhead (by decide) (by simp)
    exact ⟨hh', hb', ancestors, rfl, fun parent hreads => hclimb parent hreads (by simp)⟩

/-- If the call has found no conflict in the schemas it is done with, their names are defined nowhere
else. -/
def NoneSoFar (h : CallHistory) (child : Snapshot) (ns : String) (done : List String)
    (conflicts : List (List FQNConflict)) : Prop :=
  conflicts.flatten = [] → ∀ sc ∈ done, ∃ current, ⟨.mem (.current ns sc), current⟩ ∈ h ∧
    ∀ snap ∈ current, detectFQNConflicts child snap = []

theorem NoneSoFar.next {child : Snapshot} {done : List String} {conflicts : List (List FQNConflict)}
    {current : Option Snapshot} (hh : NoneSoFar h child ns done conflicts)
    (hfound : found = [] → ∀ snap ∈ current, detectFQNConflicts child snap = []) :
    NoneSoFar (⟨.mem (.current ns sc), current⟩ :: h) child ns (done ++ [sc]) (conflicts ++ [found]) := by
  intro hempty sc' hsc'
  rw [List.flatten_append, List.append_eq_nil_iff, List.flatten_singleton] at hempty
  obtain hsc' | hsc' := List.mem_append.mp hsc'
  · obtain ⟨current', hmem, hnone⟩ := hh hempty.1 sc' hsc'
    exact ⟨current', List.mem_cons_of_mem _ hmem, hnone⟩
  · rw [List.mem_singleton.mp hsc']
    exact ⟨current, List.mem_cons_self .., hfound hempty.2⟩

theorem spec_ancestorConflicts {child : Snapshot} {a : String} (hbefore : mirror h = .before) :
    Spec (CallGuard r c) (ancestorConflicts child a) h
      (Ends (fun conflicts h' => h <:+ h' ∧ mirror h' = .before ∧
        (conflicts = [] → ComparedWith h' child a)) fun _ _ => False) := by
  unfold ancestorConflicts
  refine spec_mem_bind (callGuard_of_quiet hbefore trivial) fun ids => ?_
  refine Meets.bind (Meets.mapM (E := fun _ _ => False) (J := fun done conflicts h' =>
      ⟨.mem (.schemaIDs a), ids⟩ :: h <:+ h' ∧ mirror h' = .before ∧ NoneSoFar h' child a done conflicts) ?_
    ⟨List.suffix_refl _, mirror_cons hbefore, fun _ _ hsc => by cases hsc⟩) (fun _ _ hfalse => hfalse) ?_
  case refine_2 =>
    intro conflicts h' hres
    obtain ⟨hh', hb', hnone⟩ := hres
    refine Meets.pure ⟨(List.suffix_cons _ _).trans hh', hb', fun hempty => ⟨ids, ?_, hnone hempty⟩⟩
    exact hh'.subset (List.mem_cons_self ..)
  case refine_1 =>
    intro done conflicts sc h' hres
    obtain ⟨hh', hb', hnone⟩ := hres
    refine spec_mem_bind (callGuard_of_quiet hb' trivial) fun current => ?_
    cases current with
    | none => exact Meets.pure ⟨hh'.trans (List.suffix_cons _ _), mirror_cons hb', hnone.next (by simp)⟩
    | some snap =>
      exact Meets.pure ⟨hh'.trans (List.suffix_cons _ _), mirror_cons hb', hnone.next (by simp)⟩

theorem spec_checkAncestorFQNConflicts {child : Snapshot} (hbefore : mirror h = .before) :
    Spec (CallGuard r c) (checkAncestorFQNConflicts child ns) h
      (Ends (fun _ h' => h <:+ h' ∧ mirror h' = .before ∧ Unshadowed h' ns child)
        fun _ h' => mirror h' = .before) := by
  unfold checkAncestorFQNConflicts
  refine (spec_chain hbefore).bind (fun _ _ hfalse => hfalse.elim) fun chain' h₁ hres => ?_
  obtain ⟨hh₁, hb₁, ancestors, rfl, hclimbed⟩ := hres
  refine Meets.mono (Meets.forM (l := ancestors)
    (J := fun done _ h' => h₁ <:+ h' ∧ mirror h' = .before ∧ ∀ a ∈ done, ComparedWith h' child a)
    (E := fun _ h' => mirror h' = .before) ?_ ⟨List.suffix_refl _, hb₁, by simp⟩) fun res h' hres => ?_
  · rintro done a rest h' - ⟨hh', hb', hall⟩
    refine (spec_ancestorConflicts hb').bind (fun _ _ hfalse => hfalse.elim) fun conflicts h'' hres => ?_
    obtain ⟨hh'', hb'', hcompared⟩ := hres
    split
    · next hempty =>
      refine Meets.pure ⟨hh'.trans hh'', hb'', fun a' ha' => ?_⟩
      obtain ha' | ha' := List.mem_append.mp ha'
      · exact (hall a' ha').mono hh''
      · exact List.mem_singleton.mp ha' ▸ hcompared (List.isEmpty_iff.mp hempty)
    · exact Meets.throw hb''
  · cases res with
    | error e => exact hres
    | ok u =>
      obtain ⟨hh', hb', hall⟩ := hres
      refine ⟨hh₁.trans hh', hb', ancestors, fun parent hreads => ?_, hall⟩
      exact hclimbed parent (hreads.mono hh')

theorem spec_storeVersion {req : PublishRequest} {v : Nat} {result : CompileResult}
    {fingerprint : String} (hpub : c.Publishes req.namespaceID req.schemaID)
    (hbefore : mirror h = .before) (hns : ⟨.mem (.getOrCreate req.namespaceID), ()⟩ ∈ h)
    (hversions : Allocated h req.namespaceID req.schemaID v)
    (hunshadowed : Unshadowed h req.namespaceID result.snapshot)
    (hresult : result.Valid r.env v req.sources) (hfiles : result.files ≠ []) :
    Spec (CallGuard r c) (r.storeVersion req v result fingerprint) h fun res h' =>
      mirror h' = orBefore (PublishResult.outcome req.namespaceID req.schemaID) res := by
  unfold Registry.storeVersion
  have hblobs : Uses Quiet (result.files.forM fun f =>
      (store (.putBlob req.namespaceID f.blobSHA256 f.originalSource)).wrap
        ("storing blob for " ++ f.filename)) := Within.forM fun f _ => (uses_store trivial).wrap _
  refine spec_quiet_bind hblobs hbefore (fun _ _ _ hb' => hb') fun _ h₁ hh₁ hb₁ => ?_
  refine spec_store_bind ?_ (fun e e' => mirror_cons hb₁) fun u => ?_
  · refine ⟨hb₁, hpub, hversions.mono hh₁, ?_, hresult.snapshot ▸ hunshadowed.mono hh₁⟩
    exact ⟨hresult.paths, hresult.registered, hresult.compiles, by simpa using hfiles, rfl⟩
  refine spec_store_bind ?_ (fun e e' => mirror_cons (mirror_cons hb₁)) fun u' => ?_
  · refine ⟨mirror_cons hb₁, .inl ⟨hpub, ?_, _, List.mem_cons_self ..⟩⟩
    exact hversions.mono (hh₁.trans (List.suffix_cons _ _))
  refine spec_mem_bind ?_ fun u'' => Meets.pure (mirror_cons (mirror_cons (mirror_cons hb₁)))
  rw [hresult.snapshot]
  refine ⟨mirror_cons (mirror_cons hb₁), ?_, ?_⟩
  · exact List.mem_cons_of_mem _ (List.mem_cons_of_mem _ (hh₁.subset hns))
  · exact .ofPut (List.mem_cons_of_mem _ (List.mem_cons_self ..)) rfl

/-- The specification of both `Publish` and `Rebase`, once they have their sources. -/
theorem spec_publishInternal {req : PublishRequest} {opts : PublishOpts}
    (hpub : c.Publishes req.namespaceID req.schemaID) (hbefore : mirror h = .before) :
    Spec (CallGuard r c) (r.publishInternal req opts) h fun res h' =>
      mirror h' = orBefore (PublishResult.outcome req.namespaceID req.schemaID) res := by
  unfold Registry.publishInternal
  refine spec_liftExcept_bind (fun _ _ => hbefore) fun _ hcheck => ?_
  refine spec_quiet_bind (ensureNamespaceAndSchema_scoped trivial trivial trivial trivial).done hbefore
    (fun _ _ _ hb' => hb') fun _ h₁ _ hb₁ => ?_
  refine spec_mem_bind (callGuard_of_quiet hb₁ trivial) fun u => ?_
  refine (spec_compileNext (mirror_cons hb₁)).bind (fun _ _ hh' => hh'.2.1) ?_
  rintro ⟨v, result⟩ h₂ ⟨hh₂, hb₂, hres⟩
  obtain ⟨hversions, hresult⟩ := hres v result rfl
  refine (spec_checkAncestorFQNConflicts hb₂).bind (fun _ _ hb' => hb') fun _ h₃ hres => ?_
  obtain ⟨hh₃, hb₃, hunshadowed⟩ := hres
  refine spec_quiet_bind (noChange_scoped quiet_of_readsIn trivial ..).done hb₃ (fun _ _ _ hb' => hb')
    fun noChange h₄ hh₄ hb₄ => ?_
  cases noChange with
  | true => exact Meets.pure hb₄
  | false =>
    have hh : h₂ <:+ h₄ := hh₃.trans hh₄
    have hns := hh.subset (hh₂.subset (List.mem_cons_self ..))
    refine spec_storeVersion hpub hb₄ hns (hversions.mono hh) (hunshadowed.mono hh₄) hresult ?_
    have hsources := mt Dict.toList_eq_nil.mp (Registry.checkRequest_eq_ok hcheck)
    rwa [ne_eq, ← List.length_eq_zero_iff, hresult.files, List.length_eq_zero_iff]

theorem spec_publish {req : PublishRequest} :
    Spec (CallGuard r (.publish req)) (r.publish req) [] fun res h' =>
      mirror h' = orBefore (PublishResult.outcome req.namespaceID req.schemaID) res :=
  spec_liftExcept_bind (fun _ _ => rfl) fun _ _ => spec_publishInternal ⟨rfl, rfl⟩ rfl

theorem spec_rebase : Spec (CallGuard r (.rebase ns sc)) (r.rebase ns sc) [] fun res h' =>
    mirror h' = orBefore (PublishResult.outcome ns sc) res := by
  unfold Registry.rebase
  refine spec_liftExcept_bind (fun _ _ => rfl) fun _ _ => ?_
  refine spec_mem_bind (callGuard_of_quiet rfl trivial) fun found => ?_
  cases found with
  | false => exact Meets.throw (mirror_cons rfl)
  | true =>
    refine spec_mem_bind (callGuard_of_quiet (mirror_cons rfl) trivial) fun cur => ?_
    cases cur with
    | none => exact Meets.throw (mirror_cons (mirror_cons rfl))
    | some cur =>
      refine spec_quiet_bind ((uses_store trivial).wrap _) (mirror_cons (mirror_cons rfl))
        (fun _ _ _ hb' => hb') fun files h₁ _ hb₁ => ?_
      refine spec_quiet_bind (fetchSources_quiet ..) hb₁ (fun _ _ _ hb' => hb')
        fun sources h₂ _ hb₂ => ?_
      exact spec_publishInternal ⟨rfl, rfl⟩ hb₂

theorem spec_checkRollback {snap : Snapshot} (hbefore : mirror h = .before)
    (hfresh : ∀ current, ⟨.mem (.current ns sc), current⟩ ∉ h) :
    Spec (CallGuard r c) (Registry.checkRollback ns sc snap) h fun res h' => h <:+ h' ∧
      mirror h' = .before ∧ ∀ u, res = .ok u → RollbackChecked h' ns sc snap := by
  refine spec_mem_bind (callGuard_of_quiet hbefore trivial) fun found => ?_
  cases found with
  | false =>
    refine Meets.pure ⟨List.suffix_cons _ _, mirror_cons hbefore, fun _ _ => ⟨.inl ?_, ?_⟩⟩
    · exact List.mem_cons_self ..
    · intro current hmem
      exact (hfresh current (by simpa using hmem)).elim
  | true =>
    refine ⟨callGuard_of_quiet (mirror_cons hbefore) trivial, fun current _ => ?_⟩
    have hsuffix : h <:+ ⟨.mem (.current ns sc), current⟩ :: ⟨.mem (.get ns), true⟩ :: h :=
      (List.suffix_cons _ _).trans (List.suffix_cons _ _)
    have hchecked : Compat.Ok current snap →
        RollbackChecked (⟨.mem (.current ns sc), current⟩ :: ⟨.mem (.get ns), true⟩ :: h) ns sc snap := by
      refine fun hok => ⟨.inr ⟨current, List.mem_cons_self ..⟩, fun current' hmem => ?_⟩
      obtain heq | hmem := List.mem_cons.mp hmem
      · cases heq
        exact hok
      · exact (hfresh current' (by simpa using hmem)).elim
    cases current with
    | none =>
      exact Meets.pure ⟨hsuffix, mirror_cons (mirror_cons hbefore), fun _ _ => hchecked Compat.ok_none⟩
    | some cur =>
      change Spec _ (unless (Compat.check (some cur) snap).isEmpty do throw _) _ _
      split
      · next hempty =>
        exact Meets.pure ⟨hsuffix, mirror_cons (mirror_cons hbefore),
          fun _ _ => hchecked (List.isEmpty_iff.mp hempty)⟩
      · exact Meets.throw ⟨hsuffix, mirror_cons (mirror_cons hbefore), by simp⟩

theorem spec_rollback (hlaw : r.env.Lawful) {v : Nat} {force : Bool} :
    Spec (CallGuard r (.rollback ns sc v force)) (r.rollback ns sc v force) [] fun res h' =>
      mirror h' = orBefore (fun _ => .staged ns sc v) res := by
  unfold Registry.rollback
  refine spec_store_bind trivial (fun _ _ => rfl) fun row => ?_
  refine spec_liftExcept_bind (fun _ _ => rfl) fun snap hsnap => ?_
  obtain ⟨rfl, hfiles⟩ := Snapshot.new_eq_ok (mapError_eq_ok.mp hsnap)
  have hperm := hlaw.newFiles_perm hfiles
  have hstage : ∀ h, ⟨.store (.getVersion ns sc snap.version), .ok row⟩ ∈ h → mirror h = .before →
      (force = false → RollbackChecked h ns sc snap) →
      Spec (CallGuard r (.rollback ns sc snap.version force)) (do
        (store (.setStaged ns sc snap.version)).wrap
          ("setting staged to version " ++ toString snap.version)
        mem (.getOrCreate ns)
        mem (.setStaged ns sc snap) : RegistryM Unit) h fun res h' =>
          mirror h' = orBefore (fun _ => .staged ns sc snap.version) res := by
    intro h hrow hbefore hchecked
    refine spec_store_bind ?_ (fun _ _ => mirror_cons hbefore) fun _ => ?_
    · exact ⟨hbefore, .inr ⟨force, row, snap, rfl, hrow, rfl, hperm, hchecked⟩⟩
    refine spec_mem_bind trivial fun _ => ?_
    refine (spec_mem ?_).mono ?_
    · refine ⟨mirror_cons (mirror_cons hbefore), List.mem_cons_self .., row, hperm, .inr ?_⟩
      exact List.mem_cons_of_mem _ (List.mem_cons_of_mem _ hrow)
    · rintro _ _ ⟨u, rfl, rfl⟩
      exact mirror_cons (mirror_cons (mirror_cons hbefore))
  cases force with
  | true => exact hstage _ (List.mem_singleton_self _) rfl (by simp)
  | false =>
    refine (spec_checkRollback rfl (by simp)).bind (fun _ _ hres => hres.2.1) fun _ h' hres => ?_
    exact hstage h' (hres.1.subset (List.mem_singleton_self _)) hres.2.1 fun _ => hres.2.2 _ rfl

/-! ### Promotion -/

theorem Compared.mem_current {staged : Snapshot} {current : Option Snapshot}
    (hh : Compared h ns sc staged current) : ⟨.mem (.current ns sc), current⟩ ∈ h := by
  obtain ⟨h₁, h₂, rfl⟩ := hh
  exact List.mem_append_right _ (List.mem_cons_self ..)

theorem Compared.mem_staged {staged : Snapshot} {current : Option Snapshot}
    (hh : Compared h ns sc staged current) : ⟨.mem (.staged ns sc), some staged⟩ ∈ h := by
  obtain ⟨h₁, h₂, rfl⟩ := hh
  exact List.mem_append_right _ (List.mem_cons_of_mem _ (List.mem_cons_self ..))

theorem compared_cons {op : Op} {res : op.Res} {staged : Snapshot} {current : Option Snapshot} :
    Compared (⟨op, res⟩ :: h) ns sc staged current ↔
      (∃ h₂, h = ⟨.mem (.staged ns sc), some staged⟩ :: h₂ ∧
        (⟨op, res⟩ : (op : Op) × op.Res) = ⟨.mem (.current ns sc), current⟩) ∨
      Compared h ns sc staged current := by
  constructor
  · rintro ⟨h₁, h₂, heq⟩
    cases h₁ with
    | nil =>
      obtain ⟨he, hh⟩ := List.cons.inj heq
      exact .inl ⟨h₂, hh, he⟩
    | cons e h₁ => exact .inr ⟨h₁, h₂, (List.cons.inj heq).2⟩
  · rintro (⟨h₂, rfl, he⟩ | ⟨h₁, h₂, rfl⟩)
    · exact ⟨[], h₂, by rw [he]; rfl⟩
    · exact ⟨_ :: h₁, h₂, rfl⟩

/-- What the loop of checks has established about the schemas it is done with. -/
structure CheckedSoFar (h : CallHistory) (ns : String) (ids done : List String) : Prop where
  found : ⟨.mem (.get ns), true⟩ ∈ h
  listed : ⟨.mem (.schemaIDs ns), ids⟩ ∈ h
  before : mirror h = .before
  visited : ∀ sc ∈ done, ⟨.mem (.staged ns sc), none⟩ ∈ h ∨
    ∃ staged current, Compared h ns sc staged current
  passes : ∀ sc staged current, Compared h ns sc staged current → Passes staged current

theorem CheckedSoFar.next {ids done : List String} {op : Op} {res : op.Res}
    (hh : CheckedSoFar h ns ids done) (hb : mirror (⟨op, res⟩ :: h) = .before)
    (hop : ∀ sc current, (⟨op, res⟩ : (op : Op) × op.Res) ≠ ⟨.mem (.current ns sc), current⟩) :
    CheckedSoFar (⟨op, res⟩ :: h) ns ids done where
  found := List.mem_cons_of_mem _ hh.found
  listed := List.mem_cons_of_mem _ hh.listed
  before := hb
  visited sc hsc := by
    refine (hh.visited sc hsc).imp (List.mem_cons_of_mem _) ?_
    rintro ⟨staged, current, hcompared⟩
    exact ⟨staged, current, compared_cons.mpr (.inr hcompared)⟩
  passes sc staged current hcompared := by
    obtain ⟨_, _, he⟩ | hcompared := compared_cons.mp hcompared
    · exact (hop sc current he).elim
    · exact hh.passes sc staged current hcompared

theorem spec_checkStaged {ids done : List String} (hh : CheckedSoFar h ns ids done) :
    Spec (CallGuard r c) (Registry.checkStaged ns sc) h
      (Ends (fun _ h' => CheckedSoFar h' ns ids (done ++ [sc])) fun _ h' => mirror h' = .before) := by
  refine spec_mem_bind (callGuard_of_quiet hh.before trivial) fun staged => ?_
  have hh₁ : CheckedSoFar (⟨.mem (.staged ns sc), staged⟩ :: h) ns ids done :=
    hh.next (mirror_cons hh.before) (by simp)
  cases staged with
  | none =>
    refine Meets.pure { hh₁ with visited := fun sc' hsc' => ?_ }
    obtain hsc' | hsc' := List.mem_append.mp hsc'
    · exact hh₁.visited sc' hsc'
    · rw [List.mem_singleton.mp hsc']
      exact .inl (List.mem_cons_self ..)
  | some staged =>
    refine spec_mem_bind (callGuard_of_quiet hh₁.before trivial) fun current => ?_
    have hpass : Passes staged current →
        CheckedSoFar (⟨.mem (.current ns sc), current⟩ :: ⟨.mem (.staged ns sc), some staged⟩ :: h) ns
          ids (done ++ [sc]) := by
      refine fun hpass => ⟨List.mem_cons_of_mem _ hh₁.found, List.mem_cons_of_mem _ hh₁.listed,
        mirror_cons hh₁.before, ?_, ?_⟩
      · intro sc' hsc'
        obtain hsc' | hsc' := List.mem_append.mp hsc'
        · refine (hh₁.visited sc' hsc').imp (List.mem_cons_of_mem _) ?_
          rintro ⟨staged, current, hcompared⟩
          exact ⟨staged, current, compared_cons.mpr (.inr hcompared)⟩
        · rw [List.mem_singleton.mp hsc']
          exact .inr ⟨staged, current, [], h, rfl⟩
      · intro sc' staged' current' hcompared
        obtain ⟨_, hh', he⟩ | hcompared := compared_cons.mp hcompared
        · cases he
          cases hh'
          exact hpass
        · exact hh₁.passes sc' staged' current' hcompared
    change Spec _ (if ∃ c ∈ current, staged.version ≤ c.version then pure () else
      unless (Compat.check current staged).isEmpty do throw _) _ _
    split
    · next hle => exact Meets.pure (hpass (.inl hle))
    · split
      · next hempty => exact Meets.pure (hpass (.inr (List.isEmpty_iff.mp hempty)))
      · exact Meets.throw (mirror_cons hh₁.before)

theorem spec_promoteSlot {rest : List String} (hh : mirror h = .promoteSlots ns (sc :: rest)) :
    Spec (CallGuard r c) (Registry.promoteSlot ns sc) h
      (Ends (fun _ h' => mirror h' = .promoteSlots ns rest) fun _ _ => False) := by
  refine spec_mem_bind ⟨rest, hh⟩ fun staged => ?_
  cases staged with
  | none => exact mirror_cons hh
  | some staged => exact ⟨⟨rest, mirror_cons hh⟩, fun _ _ => mirror_cons (mirror_cons hh)⟩

theorem spec_promote : Spec (CallGuard r (.promote ns)) (r.promote ns) [] fun res h' =>
    mirror h' = orBefore (fun _ => .promoteSlots ns []) res := by
  unfold Registry.promote
  refine spec_liftExcept_bind (fun _ _ => rfl) fun _ _ => ?_
  refine spec_mem_bind (callGuard_of_quiet rfl trivial) fun found => ?_
  cases found with
  | false => exact Meets.throw (mirror_cons rfl)
  | true =>
    refine spec_mem_bind (callGuard_of_quiet (mirror_cons rfl) trivial) fun ids => ?_
    have hinit : CheckedSoFar [⟨.mem (.schemaIDs ns), ids⟩, ⟨.mem (.get ns), true⟩] ns ids [] := by
      refine ⟨by simp, by simp, mirror_cons (mirror_cons rfl), by simp, fun _ _ _ hcompared => ?_⟩
      simpa using hcompared.mem_current
    refine Meets.bind (Meets.forM (J := fun done _ h => CheckedSoFar h ns ids done)
      (E := fun _ h => mirror h = .before) (fun done sc _ h _ hh => spec_checkStaged hh) hinit)
      (fun _ _ hb => hb) fun _ h₁ hh₁ => ?_
    refine spec_store_bind ?_ (fun _ _ => mirror_cons hh₁.before) fun promoted => ?_
    · exact ⟨hh₁.before, rfl, hh₁.found, ⟨ids, hh₁.listed, hh₁.visited⟩, hh₁.passes⟩
    have hpromote : mirror (⟨.store (.promote ns), .ok promoted⟩ :: h₁) = .promote ns :=
      mirror_cons hh₁.before
    refine spec_mem_bind ?_ fun ids' => ?_
    · rintro ns' (hns' | hns')
      · cases hns'.symm.trans hpromote
        rfl
      · cases hns'.symm.trans hpromote
    exact Meets.bind (Meets.forM (J := fun _ rest h => mirror h = .promoteSlots ns rest) (E := fun _ _ => False)
      (fun _ sc rest h _ hh => spec_promoteSlot hh) (mirror_cons hpromote))
      (fun _ _ hfalse => hfalse.elim) fun _ _ hh => Meets.pure hh

/-! ### Discarding and the hierarchy -/

theorem spec_discardStaging : Spec (CallGuard r (.discardStaging ns)) (Registry.discardStaging ns) []
    fun res h' => mirror h' = orBefore (fun _ => .discardSlots ns []) res := by
  unfold Registry.discardStaging
  refine spec_store_bind ⟨rfl, rfl⟩ (fun _ _ => mirror_cons rfl) fun u => ?_
  have hdiscard : mirror [⟨.store (.discardStaging ns), .ok u⟩] = .discard ns := mirror_cons rfl
  refine spec_mem_bind ?_ fun found => ?_
  · intro ns' hns'
    cases hns'.symm.trans hdiscard
    rfl
  cases found with
  | false => exact Meets.pure (mirror_cons hdiscard)
  | true =>
    have hdiscard' : mirror [⟨.mem (.get ns), true⟩, ⟨.store (.discardStaging ns), .ok u⟩] =
      .discard ns := mirror_cons hdiscard
    refine spec_mem_bind ?_ fun ids => ?_
    · rintro ns' (hns' | hns')
      · cases hns'.symm.trans hdiscard'
      · cases hns'.symm.trans hdiscard'
        rfl
    refine Meets.mono (Meets.forM (J := fun _ rest h => mirror h = .discardSlots ns rest) (E := fun _ _ => False)
      (fun _ sc rest h _ hh => ⟨⟨rest, hh⟩, fun _ _ => mirror_cons hh⟩) (mirror_cons hdiscard')) fun res h' hres => ?_
    cases res with
    | ok u => exact hres
    | error e => exact hres.elim

/-- Besides quiet operations, `CreateNamespace` and `SetNamespaceParent` only write parents. -/
def WritesParents : Op → Prop
  | .store (.setNamespaceParent ..) | .mem (.setParent ..) => True
  | op => Quiet op

theorem callGuard_of_writesParents (hc : c.IsHierarchy) (hbefore : mirror h = .before) {op : Op}
    (hop : WritesParents op) : CallGuard r c h op := by
  unfold WritesParents at hop
  split at hop
  · exact hc
  · exact hc
  · exact callGuard_of_quiet hbefore hop

theorem spec_hierarchy {x : RegistryM α} (hc : c.IsHierarchy) (hx : Uses WritesParents x) :
    Spec (CallGuard r c) x [] fun _ h' => mirror h' = .before := by
  have hnext : ∀ (h : CallHistory) (op : Op) (res : op.Res), mirror h = .before → WritesParents op →
      mirror (⟨op, res⟩ :: h) = .before := by
    intro h op res hb hop
    refine (mirror_cons hb).trans ?_
    unfold WritesParents at hop
    split at hop
    · rfl
    · rfl
    · exact Mirror.next_before_of_quiet hop res
  refine (Spec.ofUses (K := fun h => mirror h = .before) hx ?_ hnext rfl).mono fun _ _ hh => hh.2
  exact fun h op hb hop => callGuard_of_writesParents hc hb hop

theorem createNamespace_writesParents (p : Option String) (actor : String) :
    Uses WritesParents (r.createNamespace ns p actor) :=
  (Registry.createNamespace_scoped r trivial (fun _ => trivial) (fun _ => trivial) trivial fun _ _ =>
    ⟨trivial, trivial⟩).done

theorem setNamespaceParent_writesParents (p : Option String) (actor : String) :
    Uses WritesParents (r.setNamespaceParent ns p actor) :=
  (Registry.setNamespaceParent_scoped r trivial trivial trivial fun _ _ => trivial).done

/-- **Every call keeps to its guard**, and where it stands afterwards can be read off its reply. -/
theorem run_spec (c : Call) (hlaw : c.IsRollback → r.env.Lawful) :
    Spec (CallGuard r c) (r.run c) [] fun res h => mirror h = orBefore c.outcome res := by
  cases c with
  | publish req =>
    exact spec_publish.bind (fun _ _ hb => hb) fun res h' hres => Meets.pure hres
  | rebase ns sc => exact spec_rebase.bind (fun _ _ hb => hb) fun res h' hres => Meets.pure hres
  | rollback ns sc v force =>
    exact (spec_rollback (hlaw trivial)).bind (fun _ _ hb => hb) fun _ _ hres => Meets.pure hres
  | discardStaging ns => exact spec_discardStaging.bind (fun _ _ hb => hb) fun _ _ hres => Meets.pure hres
  | promote ns => exact spec_promote.bind (fun _ _ hb => hb) fun _ _ hres => Meets.pure hres
  | createNamespace ns p actor =>
    refine (spec_hierarchy ?_ (createNamespace_writesParents p actor)).bind (fun _ _ hb => hb)
      fun _ _ hb => Meets.pure hb
    trivial
  | setNamespaceParent ns p actor =>
    refine (spec_hierarchy ?_ (setNamespaceParent_writesParents p actor)).bind (fun _ _ hb => hb)
      fun _ _ hb => Meets.pure hb
    trivial

end

end ProtoRegistry
