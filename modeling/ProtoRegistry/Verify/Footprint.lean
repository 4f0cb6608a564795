import ProtoRegistry.Verify.Idempotence

/-!
# What a call may perform

The operations of each call, whatever they return (`run_performs`). What a call leaves alone follows from what
its operations leave alone.
-/

namespace ProtoRegistry
open RegistryM

def Op.Discards (ns : String) : Op → Prop
  | .store (.discardStaging a) | .mem (.clearStaged a _) => a = ns
  | _ => False

def Op.Stages (ns sc : String) : Op → Prop
  | .store (.setStaged a sc' _) | .mem (.setStaged a sc' _) => a = ns ∧ sc' = sc
  | _ => False

/-- The operation stores neither a blob nor a version. -/
def Op.PutsNothing : Op → Prop
  | .store (.putBlob ..) | .store (.putVersion ..) => False
  | _ => True

def Call.MayPerform (op : Op) : Call → Prop
  | .publish req => Quiet op ∨ op.Stores req.namespaceID req.schemaID
  | .rebase ns sc => Quiet op ∨ op.Stores ns sc
  | .rollback ns sc v _ => op.IsRead ∨ op = .store (.getVersion ns sc v) ∨ op = .mem (.getOrCreate ns) ∨ op.Stages ns sc
  | .discardStaging ns => op.IsRead ∨ op.Discards ns
  | .promote ns => op.Promotes ns
  | .createNamespace .. | .setNamespaceParent .. => WritesParents op ∧ op.PutsNothing

theorem Op.IsRead.quiet {op : Op} (hop : op.IsRead) : Quiet op := by
  unfold Op.IsRead at hop
  split at hop <;> trivial

theorem Op.Stages.stores {op : Op} (hop : op.Stages ns sc) : op.Stores ns sc := by
  unfold Op.Stages at hop
  split at hop <;> trivial

theorem Call.MayPerform.putsNothing {c : Call} {op : Op} (hop : c.MayPerform op) (hc : ∀ ns sc, ¬ c.Publishes ns sc) :
    op.PutsNothing := by
  cases c with
  | publish req => exact (hc _ _ ⟨rfl, rfl⟩).elim
  | rebase ns sc => exact (hc _ _ ⟨rfl, rfl⟩).elim
  | createNamespace | setNamespaceParent => exact hop.2
  | _ =>
    unfold Op.PutsNothing
    split
    · simp [MayPerform, Op.IsRead, Op.Stages, Op.Discards, Op.Promotes] at hop
    · simp [MayPerform, Op.IsRead, Op.Stages, Op.Discards, Op.Promotes] at hop
    · trivial

namespace Registry

theorem publishInternal_stores (r : Registry) (req : PublishRequest) (opts : PublishOpts) :
    Scoped (fun op => Quiet op ∨ op.Stores req.namespaceID req.schemaID) (fun _ _ => True) (r.publishInternal req opts)
      fun _ => True := by
  refine publishInternal_scoped (fun op hop => .inl (quiet_of_readsIn op hop)) r (climbs_true _) trivial trivial
    (.inl trivial) (.inl trivial) (.inl trivial) (fun _ _ => ?_) opts
  exact storeVersion_scoped r (fun _ _ => .inr trivial) (.inr ⟨rfl, rfl⟩) (.inr ⟨rfl, rfl⟩) (fun _ => .inr ⟨rfl, rfl⟩) _

/-- **What a call may perform.** -/
theorem run_performs (r : Registry) (c : Call) :
    Scoped (fun op => c.MayPerform op) (fun _ _ => True) (r.run c) fun _ => True := by
  cases c with
  | publish req => exact Within.reply (Within.bind scoped_check fun _ _ => publishInternal_stores r req _)
  | rebase ns sc =>
    exact Within.reply (rebase_scoped (fun op hop => .inl (quiet_of_readsIn op hop)) r trivial fun {_ _ sources} _ _ =>
      publishInternal_stores r ⟨ns, sc, sources, false⟩ _)
  | rollback ns sc v force =>
    refine Within.reply (rollback_scoped (P := fun _ => True) (fun op hop => .inl (isRead_of_readsIn op hop)) r trivial
      (.inr (.inl rfl)) ?_ (.inr (.inr (.inl rfl))) (fun _ => ?_) force)
    · exact .inr (.inr (.inr ⟨rfl, rfl⟩))
    · exact .inr (.inr (.inr ⟨rfl, rfl⟩))
  | discardStaging ns =>
    exact Within.reply (discardStaging_scoped (P := fun _ => True)
      (fun op hop => .inl (isRead_of_readsIn op hop)) trivial (.inr rfl)
      fun _ => .inr rfl)
  | promote ns =>
    exact Within.reply (promote_scoped (P := fun _ => True) promotes_of_readsIn r trivial rfl
      (fun _ => rfl) fun _ _ => rfl)
  | createNamespace ns p actor =>
    refine Within.reply (createNamespace_scoped r ?_ (fun _ => ?_) (fun _ => ?_) ?_ fun _ _ => ⟨?_, ?_⟩)
    all_goals exact ⟨trivial, trivial⟩
  | setNamespaceParent ns p actor =>
    refine Within.reply (setNamespaceParent_scoped r ?_ ?_ ?_ fun _ _ => ?_)
    all_goals exact ⟨trivial, trivial⟩

theorem run_uses (r : Registry) (c : Call) : Uses (fun op => c.MayPerform op) (r.run c) := (r.run_performs c).done

/-! ## What a call keeps -/

section
variable {r : Registry} {req : PublishRequest} {w : World} {J : World → Prop}

theorem snd_exec_compileNext (r : Registry) (req : PublishRequest) (w : World) :
    ((r.compileNext req).exec w).2 = w := by
  refine execute_bind_inv (J := (· = w))
    (congrArg Prod.snd (exec_wrap_of (exec_gatherDeps ..) _)) fun deps w₁ _ h₁ => ?_
  refine execute_bind_inv (J := (· = w)) ?_ fun tiers w₂ _ h₂ => ?_
  · exact h₁ ▸ congrArg Prod.snd (exec_wrap_of (exec_gatherChainTiers ..) _)
  refine execute_bind_inv (J := (· = w)) ?_ fun builtins w₃ _ h₃ => ?_
  · exact h₂ ▸ congrArg Prod.snd (exec_wrap_of (exec_gatherBuiltinsFor ..) _)
  refine execute_bind_inv (J := (· = w)) ?_ fun versions w₄ _ h₄ => ?_
  · exact h₃ ▸ congrArg Prod.snd (exec_wrap_of (exec_store ..) _)
  refine execute_bind_inv (J := (· = w)) ?_ fun result w₅ _ h₅ => h₅
  exact h₄ ▸ congrArg Prod.snd (execute_liftExcept ..)

/-- A publish keeps what its two writing parts keep: making sure of the rows, and storing the version. -/
theorem publishInternal_inv (hprepare : ∀ w, J w → J (RegistryM.exec (do
      ensureNamespaceAndSchema req.namespaceID req.schemaID
      mem (.getOrCreate req.namespaceID)) w).2)
    (hstore : ∀ {w v result}, (r.compileNext req).exec w = (.ok (v, result), w) → J w →
      J ((r.storeVersion req v result (computeFingerprint r.env result.files)).exec w).2)
    (hw : J w) (opts : PublishOpts) : J ((r.publishInternal req opts).exec w).2 := by
  refine execute_bind_inv (by rwa [execute_liftExcept]) fun _ w₁ _ hw₁ => ?_
  rw [execute_bind_assoc]
  refine execute_bind_inv (hprepare w₁ hw₁) fun _ w₂ _ hw₂ => ?_
  refine execute_bind_inv ((snd_exec_compileNext r req w₂).symm ▸ hw₂) fun compiled w₃ hnext hw₃ => ?_
  obtain ⟨v, result⟩ := compiled
  obtain ⟨rfl, -⟩ := compileNext_eq_ok.mp hnext
  have hcheck := eq_of_reads (checkAncestorFQNConflicts_reads result.snapshot req.namespaceID) (w := w₃) rfl
  refine execute_bind_inv (hcheck.symm ▸ hw₃) fun _ w₄ hchecked hw₄ => ?_
  obtain rfl : w₄ = w₃ := (congrArg Prod.snd hchecked).symm.trans hcheck
  refine execute_bind_inv ?_ fun noChange w₅ hsame hw₅ => ?_
  · split
    · exact hw₄
    · exact (congrArg Prod.snd (exec_isUnchanged ..)).symm ▸ hw₄
  cases noChange with
  | true => exact hw₅
  | false =>
    obtain rfl : w₅ = w₄ := by
      split at hsame
      · exact (congrArg Prod.snd hsame).symm
      · exact (congrArg Prod.snd hsame).symm.trans (congrArg Prod.snd (exec_isUnchanged ..))
    exact hstore hnext hw₅

theorem rebase_inv (hpublish : ∀ {w} sources, J w →
      J ((r.publishInternal { namespaceID := ns, schemaID := sc, sources } { forceNewVersion := true }).exec w).2)
    (hw : J w) : J ((r.rebase ns sc).exec w).2 := by
  refine execute_bind_inv (by rwa [execute_liftExcept]) fun _ w₁ _ hw₁ => ?_
  refine execute_bind_inv (J := J) hw₁ fun found w₂ _ hw₂ => ?_
  cases found with
  | false => exact hw₂
  | true =>
    refine execute_bind_inv (J := J) hw₂ fun current w₃ _ hw₃ => ?_
    cases current with
    | none => exact hw₃
    | some cur =>
      refine execute_bind_inv (J := J) ?_ fun files w₄ _ hw₄ => ?_
      · exact (congrArg Prod.snd (exec_wrap_of (exec_store ..) _)).symm ▸ hw₃
      refine execute_bind_inv (J := J) ?_ fun sources w₅ _ hw₅ => hpublish sources hw₅
      exact (congrArg Prod.snd (exec_fetchSources ..)).symm ▸ hw₄

/-- What is stored stays as it should be, if storing what was compiled keeps it so. -/
theorem stored_exec {J : Store → Prop} (hother : ∀ {s op}, Op.PutsNothing (.store op) → J s → J (s.perform op).2)
    (hstore : ∀ {w req v result deps tiers builtins} fingerprint,
      r.compiler.compile r.env v req.sources deps tiers builtins = .ok result → J w.store →
      J ((r.storeVersion req v result fingerprint).exec w).2.store)
    (hw : J w.store) (c : Call) : J (r.exec c w).2.store := by
  have huses : ∀ {α} {x : RegistryM α} {w : World}, Uses Op.PutsNothing x → J w.store → J (x.exec w).2.store := by
    intro α x w hx hw
    refine inv_of_uses (J := fun w => J w.store) hx (fun op w hop hw => ?_) hw rfl
    cases op with
    | mem op => exact hw
    | store op => exact hother hop hw
  have hpublish : ∀ {w : World} req opts, J w.store → J ((r.publishInternal req opts).exec w).2.store := by
    intro w req opts hw
    refine publishInternal_inv (J := fun w => J w.store) (fun w hw => huses ?_ hw) (fun hnext hw => ?_) hw opts
    · exact (ensureNamespaceAndSchema_scoped trivial trivial trivial trivial).bind fun _ _ => uses_mem trivial
    · obtain ⟨-, -, deps, tiers, builtins, -, -, -, hcompile⟩ := compileNext_eq_ok.mp hnext
      exact hstore _ hcompile hw
  by_cases hc : ∃ ns sc, c.Publishes ns sc
  · cases c with
    | publish req =>
      refine execute_bind_inv (J := fun w : World => J w.store) ?_ fun _ _ _ hw => hw
      exact execute_bind_inv (J := fun w : World => J w.store)
        (by rwa [execute_liftExcept]) fun _ _ _ hw => hpublish req _ hw
    | rebase ns sc =>
      refine execute_bind_inv (J := fun w : World => J w.store) ?_ fun _ _ _ hw => hw
      exact rebase_inv (J := fun w => J w.store) (fun _ hw => hpublish _ _ hw) hw
    | _ =>
      obtain ⟨ns, sc, hc⟩ := hc
      exact hc.elim
  · exact huses ((r.run_uses c).mono fun _ hop => hop.putsNothing fun ns sc hpub => hc ⟨ns, sc, hpub⟩) hw

end

end Registry

end ProtoRegistry
